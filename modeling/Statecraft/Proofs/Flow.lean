import Statecraft.Proofs.Liveness

/-! Blocks and the flow of control. The blocks of code are its pieces from one label, jump or exit
to the next, in order. One block follows another exactly if control can go from the last
instruction of the one to the first of the other, and the blocks that are found are those that
control gets to from the start. So removing the others keeps what control gets to. -/
namespace Statecraft

inductive Instruction.Breaks : Instruction → Prop where
  | jump (label : String) : Breaks (.jump label)
  | jumpIfNot (label : String) : Breaks (.jumpIfNot label)
  | exit (reason : ExitReason) : Breaks (.exit reason)

namespace BasicBlock

/-- The blocks are pieces of code, none of them empty, that follow each other from one index to
another. -/
inductive Ranges (code : List Instruction) : Nat → List BasicBlock → Nat → Prop where
  | nil (index : Nat) : Ranges code index [] index
  | cons {b : BasicBlock} {rest : List BasicBlock} {last : Nat} (full : b.body ≠ [])
      (same : ∀ o < b.body.length, code[b.start + o]? = b.body[o]?)
      (later : Ranges code b.stop rest last) : Ranges code b.start (b :: rest) last

/-- Code is cut into blocks: labels start them, and jumps and exits end them. -/
structure Cuts (code : List Instruction) (blocks : List BasicBlock) : Prop where
  ranges : Ranges code 0 blocks code.length
  labels : ∀ b ∈ blocks, ∀ o name, b.body[o]? = some (.label name) → o = 0
  breaks : ∀ b ∈ blocks, ∀ o x, b.body[o]? = some x → x.Breaks → o + 1 = b.body.length

/-- The successors of a block are the blocks that control can go to from its end, each listed once,
and its predecessors are those it succeeds. -/
structure Links (code : List Instruction) (blocks : List BasicBlock)
    (predecessors : Array (List Nat)) : Prop where
  once : ∀ b ∈ blocks, b.successors.Nodup
  inside : ∀ b ∈ blocks, ∀ j ∈ b.successors, j < blocks.length
  flows : ∀ (i j : Nat) (b next : BasicBlock), blocks[i]? = some b → blocks[j]? = some next →
    (j ∈ b.successors ↔ Code.Flows code (b.stop - 1) next.start)
  converse : ∀ j < blocks.length, ∃ before, predecessors[j]? = some before ∧ before.Nodup ∧
    ∀ i, i ∈ before ↔ ∃ b, blocks[i]? = some b ∧ j ∈ b.successors

variable {code run : List Instruction} {x : Instruction} {blocks : List BasicBlock}
  {b next : BasicBlock} {i j : Nat}

theorem endsBlock_of_breaks (breaks : x.Breaks) : endsBlock x = true := by
  cases breaks <;> rfl

/-- Blocks that are located in code from an index on cover it from there. -/
theorem ranges_locate (heads : List (String × Nat)) (count place start : Nat)
    {runs : List (List Instruction)} (full : ∀ run ∈ runs, run ≠ [])
    (same : ∀ o < runs.flatten.length, code[start + o]? = runs.flatten[o]?) :
    Ranges code start (locate heads count place start runs) (start + runs.flatten.length) := by
  induction runs generalizing place start with
  | nil => exact .nil start
  | cons run rest ih =>
    rw [List.flatten_cons] at same ⊢
    rw [List.length_append] at same ⊢
    have later : Ranges code (start + run.length) (locate heads count (place + 1)
        (start + run.length) rest) (start + run.length + rest.flatten.length) := by
      apply ih
      · exact fun other member => full other (List.mem_cons_of_mem _ member)
      · intro o bound
        rw [Nat.add_assoc, same _ (by omega), List.getElem?_append_right (Nat.le_add_right _ _),
          Nat.add_sub_cancel_left]
    rw [← Nat.add_assoc]
    apply Ranges.cons (b := ⟨start, run, _⟩)
    · exact full run List.mem_cons_self
    · intro o bound
      rw [same o (Nat.lt_add_right _ bound)]
      exact List.getElem?_append_left bound
    · exact later

/-- A block of the code and the run it is made of. -/
theorem mem_split (member : b ∈ split code) :
    ∃ place, (BasicBlock.runs code)[place]? = some b.body ∧
      b.start = startOf (BasicBlock.runs code) place ∧ b.successors = successorsAt code place := by
  obtain ⟨place, here⟩ := List.mem_iff_getElem?.mp member
  rw [getElem?_split, Option.map_eq_some_iff] at here
  obtain ⟨run, here, rfl⟩ := here
  exact ⟨place, here, rfl, rfl⟩

theorem split_cuts (code : List Instruction) : Cuts code (split code) := by
  have whole := (runs_spec code).1
  constructor
  case ranges =>
    have full : ∀ run ∈ BasicBlock.runs code, run ≠ [] :=
      fun run member => ((runs_spec code).2 run member).1
    have covered : Ranges code 0 (split code) (0 + (BasicBlock.runs code).flatten.length) :=
      ranges_locate _ _ 0 0 full (by simp [whole])
    rwa [whole, Nat.zero_add] at covered
  case labels =>
    intro b member o name label
    obtain ⟨place, here, -, -⟩ := mem_split member
    have located : At code place o _ b.body := ⟨here, (List.getElem?_eq_some_iff.mp label).1, rfl⟩
    exact located.offset_of_label (located.same.trans label)
  case breaks =>
    intro b member o x current breaks
    obtain ⟨place, here, -, -⟩ := mem_split member
    have located : At code place o _ b.body :=
      ⟨here, (List.getElem?_eq_some_iff.mp current).1, rfl⟩
    exact located.last_of_ends (located.same.trans current) (endsBlock_of_breaks breaks)

/-- When repetitions are dropped none is left. -/
theorem nodup_eraseDups : (l : List Nat) → l.eraseDups.Nodup
  | [] => .nil
  | first :: rest => by
    rw [List.eraseDups_cons, List.nodup_cons]
    exact ⟨by simp [List.mem_eraseDups], nodup_eraseDups _⟩
termination_by l => l.length
decreasing_by exact Nat.lt_succ_of_le (List.length_filter_le _ _)

theorem nodup_successorsAt (code : List Instruction) (place : Nat) :
    (successorsAt code place).Nodup := by
  simp only [successorsAt]
  cases (BasicBlock.runs code)[place]?.bind List.getLast? with
  | none => exact .nil
  | some last => exact nodup_eraseDups _

/-- The last instruction of a run. -/
theorem At.final (here : (BasicBlock.runs code)[i]? = some run) :
    At code i (run.length - 1) (startOf (BasicBlock.runs code) i + run.length - 1) run ∧
      run.length - 1 + 1 = run.length := by
  have positive := (At.first here).inside
  exact ⟨⟨here, Nat.sub_lt positive Nat.zero_lt_one, Nat.add_sub_assoc positive _⟩,
    Nat.sub_add_cancel positive⟩

/-- A run is succeeded by the runs to whose first instruction control can go from its end. -/
theorem mem_successorsAt_iff {next : List Instruction} (distinct : (Code.labels code).Nodup)
    (here : (BasicBlock.runs code)[i]? = some run)
    (there : (BasicBlock.runs code)[j]? = some next) :
    j ∈ successorsAt code i ↔ Code.Flows code (startOf (BasicBlock.runs code) i + run.length - 1)
      (startOf (BasicBlock.runs code) j) := by
  obtain ⟨located, last⟩ := At.final here
  constructor
  · intro follows
    obtain ⟨target, run', there, flows⟩ := flows_of_successor located last follows
    obtain rfl : target = startOf (BasicBlock.runs code) j := there.index
    exact flows
  · intro flows
    have first := At.first there
    rcases flows_cases distinct located flows with
      within | ⟨-, past | ⟨place', run', follows, located'⟩⟩
    · -- there is nothing in the run behind its last instruction
      have inside := within.inside
      omega
    · have bound := first.bound
      omega
    · rwa [(first.unique located').1]

/-- Noting one block as a predecessor. -/
theorem getElem?_precede {targets : List Nat} (once : targets.Nodup) (source : Nat)
    (table : Array (List Nat)) : (precede source targets table)[j]? =
      table[j]?.map fun before => if j ∈ targets then source :: before else before := by
  induction targets generalizing table with
  | nil => simp [precede]
  | cons target rest ih =>
    obtain ⟨apart, once⟩ := List.nodup_cons.mp once
    have step : precede source (target :: rest) table =
      precede source rest (table.modify target (source :: ·)) := rfl
    rw [step, ih once, Array.getElem?_modify]
    by_cases same : target = j
    · subst same
      cases table[target]? <;> simp [apart]
    · simp [same, Ne.symm same]

/-- The places of the blocks with the given successor, in order. -/
def sources (blocks : List BasicBlock) (j : Nat) : List Nat :=
  (blocks.zipIdx.filter fun entry => j ∈ entry.1.successors).map Prod.snd

theorem mem_sources : i ∈ sources blocks j ↔ ∃ b, blocks[i]? = some b ∧ j ∈ b.successors := by
  simp [sources, List.mem_zipIdx_iff_getElem?]

theorem nodup_sources (blocks : List BasicBlock) (j : Nat) : (sources blocks j).Nodup := by
  have places : (blocks.zipIdx.map Prod.snd).Nodup := by
    rw [List.zipIdx_map_snd]
    exact List.nodup_range'
  exact places.sublist (List.filter_sublist.map _)

theorem foldl_precede (once : ∀ b ∈ blocks, b.successors.Nodup) (first : Nat)
    (table : Array (List Nat)) :
    ((blocks.zipIdx first).foldl (fun table (b, place) => precede place b.successors table)
        table)[j]? =
      table[j]?.map fun before =>
        (((blocks.zipIdx first).filter fun entry => j ∈ entry.1.successors).map
          Prod.snd).reverse ++ before := by
  induction blocks generalizing first table with
  | nil => simp
  | cons b rest ih =>
    have later : ∀ b ∈ rest, b.successors.Nodup :=
      fun other member => once other (List.mem_cons_of_mem _ member)
    rw [List.zipIdx_cons, List.foldl_cons, ih later, getElem?_precede (once b List.mem_cons_self),
      Option.map_map]
    congr 1
    funext before
    by_cases follows : j ∈ b.successors <;> simp [follows]

/-- The predecessors of a block are the blocks that it succeeds. -/
theorem getElem?_predecessors (once : ∀ b ∈ blocks, b.successors.Nodup)
    (inside : j < blocks.length) : (predecessors blocks)[j]? = some (sources blocks j) := by
  have empty : (Array.replicate blocks.length ([] : List Nat))[j]? = some [] := by simp [inside]
  rw [predecessors, Array.getElem?_map, foldl_precede once, empty]
  simp [sources]

theorem split_links (distinct : (Code.labels code).Nodup) :
    Links code (split code) (predecessors (split code)) := by
  have once : ∀ b ∈ split code, b.successors.Nodup := by
    intro b member
    obtain ⟨place, -, -, same⟩ := mem_split member
    exact same ▸ nodup_successorsAt code place
  constructor
  case once => exact once
  case inside =>
    intro b member j follows
    obtain ⟨place, here, -, same⟩ := mem_split member
    obtain ⟨located, last⟩ := At.final here
    obtain ⟨target, run, there, -⟩ := flows_of_successor located last (same ▸ follows)
    rw [length_split]
    exact (List.getElem?_eq_some_iff.mp there.here).1
  case flows =>
    intro i j b next here there
    rw [getElem?_split, Option.map_eq_some_iff] at here there
    obtain ⟨run, here, rfl⟩ := here
    obtain ⟨run', there, rfl⟩ := there
    exact mem_successorsAt_iff distinct here there
  case converse =>
    intro j inside
    exact ⟨_, getElem?_predecessors once inside, nodup_sources _ j, fun i => mem_sources⟩

end BasicBlock

namespace Optimize

open BasicBlock (At Cuts Links)
open Code (Way)

variable {code : List Instruction}

/-- A block is found if and only if ways get to its instructions. -/
theorem reach_iff (distinct : (Code.labels code).Nodup) {place k : Nat} {b : BasicBlock}
    (here : (BasicBlock.split code)[place]? = some b) (low : b.start ≤ k) (high : k < b.stop) :
    (BasicBlock.reach (BasicBlock.split code)).contains place = true ↔ Way code k := by
  rw [BasicBlock.getElem?_split, Option.map_eq_some_iff] at here
  obtain ⟨run, here, rfl⟩ := here
  simp only [BasicBlock.stop] at low high
  have located : At code place (k - BasicBlock.startOf (BasicBlock.runs code) place) k run :=
    ⟨here, by omega, by omega⟩
  rw [← reached_at located]
  exact reached_iff distinct located.bound

/-- Code with distinct labels is cut into blocks that cover it. A block follows another if and only
if control can go from the last instruction of the one to the first of the other. The blocks that
are found are those whose instructions ways lead to, so these instructions are what is left of the
code when the other blocks are removed. -/
theorem split_charts (distinct : (Code.labels code).Nodup) :
    let blocks := BasicBlock.split code
    Cuts code blocks ∧ Links code blocks (BasicBlock.predecessors blocks) ∧
    (∀ place b, blocks[place]? = some b → ∀ k, b.start ≤ k → k < b.stop →
      ((BasicBlock.reach blocks).contains place = true ↔ Way code k)) ∧
    ∃ keep, (∀ i < code.length, keep i = true ↔ Way code i) ∧
      (dropUnreachable code).code = Code.thin keep code := by
  refine ⟨BasicBlock.split_cuts code, BasicBlock.split_links distinct, ?_, ?_⟩
  · intro place b here k low high
    exact reach_iff distinct here low high
  · exact ⟨reached code, fun i inside => reached_iff distinct inside, dropUnreachable_eq code⟩

/-- A loop with a way out, and code that no way leads to although it goes on to what the loop leads
to. -/
theorem split_charts_loop :
    let code : List Instruction := [.label "loop", .push (.boolean true), .jumpIfNot "out",
      .jump "loop", .push (.string "dead"), .label "out", .exit .success]
    let blocks := BasicBlock.split code
    (Code.labels code).Nodup ∧
      blocks.map (fun b => (b.start, b.stop, b.successors)) =
        [(0, 3, [3, 1]), (3, 4, [0]), (4, 5, [3]), (5, 7, [])] ∧
      BasicBlock.predecessors blocks = #[[1], [0], [], [0, 2]] ∧
      Code.Flows code 2 5 ∧ Way code 6 ∧ ¬Way code 4 := by
  intro code blocks
  have distinct : (Code.labels code).Nodup := by decide
  obtain ⟨-, links, found, -⟩ := split_charts distinct
  refine ⟨distinct, by decide, by decide +kernel, ?_, ?_, ?_⟩
  · exact (links.flows 0 3 _ _ rfl rfl).mp (by decide)
  · exact (found 3 _ rfl 6 (by decide) (by decide)).mp (by decide)
  · exact fun way => absurd ((found 2 _ rfl 4 (by decide) (by decide)).mpr way) (by decide)

end Optimize
end Statecraft
