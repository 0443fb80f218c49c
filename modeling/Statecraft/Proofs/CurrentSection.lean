import Statecraft.Proofs.Agreement
import Statecraft.Proofs.Compilation
import Statecraft.Proofs.CurrentState
import Statecraft.Proofs.StackSafety

/-! Where the machine is and which state it is in. The section that is run is that of
the current state, except between a move and the jump or exit after it, and the machine
stops only in a state without a when-block or where an assertion fails. -/
namespace Statecraft

namespace Program

def isState (p : Program) (name : String) : Bool := p.graph.any (·.hasState name)

/-- The state whose section the index lies in: the last state label up to there. -/
def section? (p : Program) (index : Nat) : Option String :=
  ((Code.labels (p.instructions.take (index + 1))).filter p.isState).getLast?

/-- A jump or an exit stands here, right after a move. -/
def leaves (p : Program) : Nat → Bool
  | 0 => false
  | index + 1 =>
      match p.code[index]?, p.code[index + 1]? with
      | some (.transition _), some x => x.isTerminator
      | _, _ => false

end Program

namespace Compile

open Code (labels)

variable {p : Program} {withBlock : List String} {index start : Nat} {home state name : String}
  {x : Instruction} {before rest body : List Instruction}

/-- What leads out of a section stands at the index: the jump to the section of the state,
or an exit if it has none. -/
def Departs (p : Program) (withBlock : List String) (index : Nat) (state : String) : Prop :=
  p.code[index]? = some (if state ∈ withBlock then .jump state else .exit .finalStateReached)

theorem Departs.of_entry (segment : p.Segment index (entry (some state) withBlock)) :
    Departs p withBlock index state := by
  by_cases within : state ∈ withBlock
  · simp only [entry, within, if_true, List.cons_append] at segment
    simpa [Departs, within] using segment.head
  · simp only [entry, within, if_false, List.nil_append] at segment
    simpa [Departs, within] using segment.head

theorem Departs.leaves (departs : Departs p withBlock (index + 1) state)
    (moved : p.code[index]? = some (.transition state)) : p.leaves (index + 1) = true := by
  rw [Departs] at departs
  simp only [Program.leaves, moved, departs]
  split <;> rfl

/-- A stretch of the program is code that keeps to one state and has the way out of it
at its end. It lies in the section of this state, or in none. -/
structure Stretch (p : Program) (withBlock : List String) (home : String) (start : Nat)
    (body : List Instruction) : Prop where
  segment : p.Segment start body
  stays : Stays home withBlock (labels body) body
  departs : Departs p withBlock (start + body.length) home
  section_eq : ∀ k ≤ body.length, ∀ name ∈ p.section? (start + k), home = name

/-- Control is at the index and the state is the current one: either the index lies in a
stretch of this state, or the machine has just moved there and is about to leave. -/
inductive Stands (p : Program) (withBlock : List String) (index : Nat) (state : String) : Prop where
  | home {start : Nat} {before rest : List Instruction}
      (stretch : Stretch p withBlock state start (before ++ rest))
      (stays : Stays state withBlock (labels (before ++ rest)) rest)
      (here : index = start + before.length)
  | away (moved : p.leaves index = true) (departs : Departs p withBlock index state)

theorem Stretch.enter (stretch : Stretch p withBlock home start body) :
    Stands p withBlock start home :=
  .home (show Stretch p withBlock home start ([] ++ body) from stretch) stretch.stays rfl

theorem Stretch.next (stretch : Stretch p withBlock home start (before ++ x :: rest))
    (stays : Stays home withBlock (labels (before ++ x :: rest)) rest) :
    Stands p withBlock (start + before.length + 1) home := by
  rw [List.append_cons] at stretch stays
  exact .home stretch stays (by simp [Nat.add_assoc])

theorem Stretch.close (stretch : Stretch p withBlock home start (before ++ [])) :
    Departs p withBlock (start + before.length) home := by
  have departs := stretch.departs
  rwa [List.append_nil] at departs

theorem Stands.inside (stands : Stands p withBlock index state) : ∃ x, p.code[index]? = some x := by
  cases stands with
  | away _ departs => exact ⟨_, departs⟩
  | @home start before rest stretch stays here =>
    subst here
    cases rest with
    | nil => exact ⟨_, stretch.close⟩
    | cons x rest => exact ⟨x, stretch.segment.right.head⟩

theorem Stands.section_eq (stands : Stands p withBlock index state)
    (found : p.section? index = some name) (stays : p.leaves index = false) : state = name := by
  cases stands with
  | away moved departs => simp [moved] at stays
  | @home start before rest stretch _ here =>
    exact stretch.section_eq before.length (by simp) name (here ▸ found)

/-- Every state with a when-block has its section, which begins with its label. -/
def Sectioned (p : Program) (withBlock : List String) : Prop :=
  ∀ name ∈ withBlock, ∃ start body, Stretch p withBlock name start (.label name :: body)

def Justified (withBlock : List String) (state : String) (reason : ExitReason) : Prop :=
  reason = .finalStateReached ∧ state ∉ withBlock ∨ reason = .assertionFailed ∧ state ∈ withBlock

end Compile

namespace Machine

open Compile (Departs Sectioned Stands Justified)

variable {m next : Machine} {x : Instruction} {withBlock : List String}

theorem moveTo_state {target : String} (moved : m.moveTo target = .ok next) :
    next.exit = m.exit ∧ next.state = target ∧ next.ip = m.ip + 1 := by
  simp only [moveTo, Graph.Walker.moveTo] at moved
  split at moved
  · contradiction
  · rename_i w walks
    cases found : w.graph.find? target with
    | none => simp [found] at moved
    | some s =>
      simp only [found] at moved
      split at moved
      · contradiction
      · rename_i w' walked
        split at walked <;> cases walked
        cases moved
        exact ⟨rfl, by simpa [state] using List.find?_some found, rfl⟩

theorem jumpTo_state {label : String} (jumped : m.jumpTo label = .ok next) :
    next.exit = m.exit ∧ next.state = m.state := by
  simp only [jumpTo] at jumped
  split at jumped <;> cases jumped
  exact ⟨rfl, rfl⟩

theorem execute_state (executed : m.execute x = .ok next) (goes : x.goesOn = true) :
    next.exit = m.exit ∧ next.state = m.state ∧ next.ip = m.ip + 1 := by
  cases x with
  | push | label | location =>
    cases executed
    exact ⟨rfl, rfl, rfl⟩
  | load name =>
    simp only [execute] at executed
    split at executed <;> cases executed
    exact ⟨rfl, rfl, rfl⟩
  | store name =>
    simp only [execute] at executed
    split at executed <;> cases executed
    exact ⟨rfl, rfl, rfl⟩
  | unary op operand =>
    simp only [execute, applyUnary] at executed
    split at executed
    · contradiction
    · split at executed <;> cases executed
      exact ⟨rfl, rfl, rfl⟩
  | binary op left right =>
    simp only [execute, applyBinary] at executed
    split at executed
    · contradiction
    · split at executed
      · contradiction
      · split at executed <;> cases executed
        exact ⟨rfl, rfl, rfl⟩
  | jump | jumpIfNot | transition | exit => contradiction

theorem execute_jump {label : String} (jumps : x.jumpTarget? = some label)
    (executed : m.execute x = .ok next) :
    (next.exit = m.exit ∧ next.state = m.state) ∧
      (next.ip = m.ip + 1 ∨ m.program.instructions[next.ip]? = some (.label label)) := by
  cases x with
  | jump =>
    cases jumps
    exact ⟨jumpTo_state executed, .inr (jumpTo_lands executed)⟩
  | jumpIfNot =>
    cases jumps
    simp only [execute] at executed
    split at executed
    · contradiction
    · split at executed
      · cases executed
        exact ⟨⟨rfl, rfl⟩, .inl rfl⟩
      · have kept := jumpTo_state executed
        have lands := jumpTo_lands executed
        exact ⟨kept, .inr lands⟩
  | push | load | store | unary | binary | label | location | transition | exit => contradiction

/-- The machine runs the program, its place goes with its state, and so does the reason if
it exited. -/
structure Housed (m : Machine) (p : Program) (withBlock : List String) : Prop where
  runs : m.program = p
  place : Stands p withBlock m.ip m.state
  reason : ∀ reason, m.exit = some reason → Justified withBlock m.state reason

namespace Housed

variable {p : Program} {reason : ExitReason}

theorem go (housed : m.Housed p withBlock) (going : m.exit = none)
    (executed : m.execute x = .ok next) (still : next.exit = m.exit)
    (place : Stands p withBlock next.ip next.state) : next.Housed p withBlock := by
  refine ⟨(execute_frame executed).1.trans housed.runs, place, fun reason exited => ?_⟩
  rw [still, going] at exited
  contradiction

theorem halt (housed : m.Housed p withBlock) (justified : Justified withBlock m.state reason)
    (executed : m.execute (.exit reason) = .ok next) : next.Housed p withBlock := by
  cases executed
  refine ⟨housed.runs, housed.place, ?_⟩
  rintro _ ⟨⟩
  exact justified

/-- A label stands once in the program, so this is where the machine is after a jump. -/
theorem ip_eq (housed : m.Housed p withBlock) {label : String} {index : Nat}
    (lands : m.program.instructions[next.ip]? = some (.label label))
    (there : p.code[index]? = some (.label label)) : next.ip = index := by
  rw [housed.runs] at lands
  exact Code.label_unique p.labels_nodup lands ((p.getElem?_code _).symm.trans there)

theorem depart (sections : Sectioned p withBlock) (housed : m.Housed p withBlock)
    (going : m.exit = none) (departs : Departs p withBlock m.ip m.state)
    (current : p.code[m.ip]? = some x) (executed : m.execute x = .ok next) :
    next.Housed p withBlock := by
  have way := Option.some.inj (current.symm.trans departs)
  by_cases within : m.state ∈ withBlock
  · rw [if_pos within] at way
    subst way
    obtain ⟨still, now⟩ := jumpTo_state executed
    obtain ⟨start, body, stretch⟩ := sections _ within
    have there : next.ip = start := housed.ip_eq (jumpTo_lands executed) stretch.segment.head
    exact housed.go going executed still (there ▸ now ▸ stretch.enter)
  · rw [if_neg within] at way
    subst way
    exact housed.halt (.inl ⟨rfl, within⟩) executed

end Housed

/-- An instruction takes the machine along its stretch, out of the state with a move, or to
where the way out leads. -/
theorem execute_housed {p : Program} (sections : Sectioned p withBlock)
    (housed : m.Housed p withBlock) (going : m.exit = none)
    (current : p.code[m.ip]? = some x) (executed : m.execute x = .ok next) :
    next.Housed p withBlock := by
  cases housed.place with
  | away _ departs => exact housed.depart sections going departs current executed
  | @home start before rest stretch stays here =>
    cases rest with
    | nil => exact housed.depart sections going (here ▸ stretch.close) current executed
    | cons y rest =>
      have found := stretch.segment.right.head
      rw [← here] at found
      obtain rfl : x = y := Option.some.inj (current.symm.trans found)
      cases stays with
      | on goes later =>
        obtain ⟨still, now, there⟩ := execute_state executed goes
        refine housed.go going executed still ?_
        rw [now, there, here]
        exact stretch.next later
      | @jump _ label _ jumps near later =>
        obtain ⟨⟨still, now⟩, on | lands⟩ := execute_jump jumps executed
        · refine housed.go going executed still ?_
          rw [now, on, here]
          exact stretch.next later
        · -- The label may stand on either side of the jump, so the stretch is split anew.
          obtain ⟨before', rest', code, stays'⟩ := stretch.stays.at_label near
          rw [code] at stretch stays'
          have there := housed.ip_eq lands stretch.segment.right.head
          exact housed.go going executed still (now ▸ .home stretch stays' there)
      | fail within later => exact housed.halt (.inr ⟨rfl, within⟩) executed
      | move target later =>
        -- The state changes here, and the place only with the next instruction.
        obtain ⟨still, now, there⟩ := moveTo_state executed
        have departs := Departs.of_entry stretch.segment.right.tail.left
        rw [← here] at departs
        refine housed.go going executed still ?_
        rw [now, there]
        exact .away (departs.leaves current) departs

theorem stepped_housed {p : Program} (sections : Sectioned p withBlock)
    (housed : m.Housed p withBlock) : m.stepped.Housed p withBlock := by
  cases stopped : m.stopped with
  | true =>
    rw [stepped_of_stopped stopped]
    exact housed
  | false =>
    obtain ⟨x, current⟩ := housed.place.inside
    rw [← housed.runs] at current
    cases executed : m.execute x with
    | error failure =>
      obtain ⟨rest, -, stepped⟩ := stepped_of_error stopped current executed
      rw [stepped]
      exact ⟨housed.runs, housed.place, housed.reason⟩
    | ok next =>
      rw [housed.runs] at current
      obtain ⟨runs, place, reason⟩ :=
        execute_housed sections housed (stopped_eq_false.mp stopped).1 current executed
      rw [stepped_of_ok stopped (housed.runs.symm ▸ current) executed]
      exact ⟨runs, place, reason⟩

theorem after_housed {p : Program} (sections : Sectioned p withBlock)
    (housed : m.Housed p withBlock) (n : Nat) : (m.after n).Housed p withBlock := by
  induction n generalizing m with
  | zero => exact housed
  | succ n ih => exact ih (stepped_housed sections housed)

end Machine

namespace Program

variable {p : Program}

theorem section?_of_label {name : String} {before after code : List Instruction}
    (parts : p.instructions = before ++ (.label name :: code) ++ after)
    (state : p.isState name = true) (apart : ∀ l ∈ Code.labels code, p.isState l = false)
    {k : Nat} (inside : k ≤ code.length) : p.section? (before.length + k) = some name := by
  have taken : p.instructions.take (before.length + k + 1) =
      before ++ .label name :: code.take k := by
    rw [parts, List.append_assoc, Nat.add_assoc, List.take_length_add_append]
    simp [List.take_append_of_le_length, inside]
  have rest : (Code.labels (code.take k)).filter p.isState = [] := by
    rw [List.filter_eq_nil_iff]
    intro l member
    have whole := ((List.take_sublist k code).filterMap Instruction.label?).subset member
    simp [apart l whole]
  rw [section?, taken, Code.labels_append, Code.labels_cons, List.filter_append]
  simp [Instruction.label?, state, rest]

theorem section?_of_unlabelled {code after : List Instruction}
    (parts : p.instructions = code ++ after) (plain : Code.labels code = []) {k : Nat}
    (inside : k < code.length) : p.section? k = none := by
  have none : Code.labels (code.take (k + 1)) = [] :=
    List.sublist_nil.mp (plain ▸ (List.take_sublist (k + 1) code).filterMap Instruction.label?)
  rw [section?, parts, List.take_append_of_le_length (by omega), none]
  rfl

end Program

namespace Compile

open Source (WhenBlock)

variable {program : Source.Program} {earlier reports : List Report} {p : Program} {scope : Scope}

/-- The section of a when-block up to its last jump is a stretch. -/
theorem section_stretch (plain : scope.Plain)
    (states : ∀ name, p.isState name = true ↔ name ∈ scope.states) {b : WhenBlock}
    (declared : b.state.text ∈ scope.states) (within : b.state.text ∈ scope.withBlock)
    {counter : Nat} {before after : List Instruction}
    (parts : p.instructions = before ++ sectionCode scope counter b ++ after) :
    ∃ body, Stretch p scope.withBlock b.state.text before.length (.label b.state.text :: body) := by
  have segment := Program.Segment.of_instructions parts
  have closed : (block scope counter b.body).Closed scope counter := block_closed b.body counter
  have fresh (l : String) (member : l ∈ Code.labels (block scope counter b.body).code) :
      p.isState l = false := by
    obtain ⟨stem, n, -, -, -, rfl⟩ := closed.numbered.fresh l member
    rw [← Bool.not_eq_true, states]
    exact fun stated => freshName_not_plain plain stated rfl
  refine ⟨.location (.hullAll [b.keyword, b.state.span]) :: (block scope counter b.body).code,
    segment.left, .on rfl (.on rfl (block_stays within b.body counter ?_)), ?_, ?_⟩
  · exact List.subset_cons_self ..
  · simpa [Departs, within] using segment.right.head
  · intro k inside name found
    have here := Program.section?_of_label (k := k) parts ((states _).mpr declared)
      (fun l member => fresh l ?_) ?_
    · exact Option.some.inj (here.symm.trans found)
    · simpa [Code.labels_cons, Instruction.label?] using member
    · simpa using inside

/-- The code of the declarations is a stretch of the initial state, outside all sections. -/
theorem preamble_stretch {initial : String} {after : List Instruction}
    (first : (scopeOf program).states.head? = some initial)
    (parts : p.instructions = preamble program ++ after) :
    Stretch p (scopeOf program).withBlock initial 0 (Declared.ofProgram program).code := by
  have segment : p.Segment 0 (preamble program) :=
    Program.Segment.of_instructions (a := []) parts
  have goes : ∀ x ∈ (Declared.ofProgram program).code, x.goesOn = true :=
    Declared.foldl_goesOn program nofun
  have declared : Code.labels (Declared.ofProgram program).code = [] :=
    (Declared.foldl_plain program ⟨rfl, rfl⟩).1
  have plain : Code.labels (preamble program) = [] := by
    rw [preamble, Code.labels_append, declared, (entry_targets _ _).1, List.append_nil]
  refine ⟨segment.left, .of_goesOn goes, ?_, ?_⟩
  · rw [preamble, first] at segment
    exact .of_entry segment.right
  · intro k inside name found
    rw [Nat.zero_add, Program.section?_of_unlabelled parts plain ?_] at found
    · contradiction
    · simp only [preamble, entry, List.length_append, List.length_singleton]
      omega

theorem mem_withBlock_iff (accepted : Compile.program program earlier = .ok ⟨some p, reports⟩)
    (name : String) :
    name ∈ (scopeOf program).withBlock ↔ (program.body? name).isSome = true := by
  constructor
  · intro within
    obtain ⟨b, member, rfl⟩ := List.mem_map.mp (List.mem_filter.mp within).1
    rw [Option.isSome_iff_ne_none]
    exact fun missing => Source.Program.body?_none missing b member rfl
  · intro found
    obtain ⟨body, found⟩ := Option.isSome_iff_exists.mp found
    obtain ⟨b, member, rfl, -, -⟩ := Source.Program.body?_some found
    obtain ⟨-, houses, -⟩ := accepted_sections accepted
    exact List.mem_filter.mpr ⟨List.mem_map_of_mem member, decide_eq_true (houses b member).1⟩

/-- The machine of an accepted program is always where its state has it. -/
theorem accepted_housed (named : ∀ d ∈ program, d.Named)
    (accepted : Compile.program program earlier = .ok ⟨some p, reports⟩) (n : Nat) :
    ((Machine.start p).after n).Housed p (scopeOf program).withBlock := by
  obtain ⟨list, graph, builder, -, built, -, code, walks, -⟩ := accepted_parts accepted
  obtain ⟨lists, houses, opened, after, shorter⟩ := accepted_sections accepted
  have names : graph.names = (scopeOf program).states := by
    rw [Graph.names, (build_parts built).1, opened.states]
  have states (name : String) : p.isState name = true ↔ name ∈ (scopeOf program).states := by
    simp [Program.isState, walks, Graph.hasState, Graph.find?, ← names, Graph.names]
  have first : (scopeOf program).states.head? = some graph.initial.name := by
    rw [← names]
    rfl
  refine Machine.after_housed ?_ ⟨rfl, ?_, fun reason exited => by contradiction⟩ n
  · intro name within
    obtain ⟨b, member, rfl⟩ := List.mem_map.mp (List.mem_filter.mp within).1
    obtain ⟨declared, counter, ⟨before, after, parts⟩, -⟩ := houses b member
    exact ⟨_, section_stretch (scope_plain named lists) states declared within
      (code.trans parts)⟩
  · have stands := (preamble_stretch first (code.trans shorter.symm)).enter
    simpa [Machine.start, Machine.state, walks, Graph.Walker.start] using stands

end Compile

/-- Code and machine stay in step: inside the section of a state this is the current one,
unless the machine has just moved and is about to leave, and a run stops only in a state
without a when-block, which is final, or at an assertion in one that has it. -/
theorem compiled_resides {source : Source.Program} {compiled : Program}
    {earlier reports : List Report} (named : ∀ d ∈ source, d.Named)
    (accepted : Compile.program source earlier = .ok ⟨some compiled, reports⟩) (n : Nat) :
    (∀ name, compiled.section? ((Machine.start compiled).after n).ip = some name →
      compiled.leaves ((Machine.start compiled).after n).ip = false →
        ((Machine.start compiled).after n).state = name) ∧
    ∀ reason, ((Machine.start compiled).after n).exit = some reason →
      (reason = .finalStateReached ∧
        source.body? ((Machine.start compiled).after n).state = none) ∨
      (reason = .assertionFailed ∧
        (source.body? ((Machine.start compiled).after n).state).isSome = true) := by
  obtain ⟨-, place, justified⟩ := Compile.accepted_housed named accepted n
  refine ⟨fun name => place.section_eq, fun reason exited => ?_⟩
  have within := Compile.mem_withBlock_iff accepted ((Machine.start compiled).after n).state
  rcases justified reason exited with ⟨same, apart⟩ | ⟨same, member⟩
  · rw [within, Option.not_isSome_iff_eq_none] at apart
    exact .inl ⟨same, apart⟩
  · exact .inr ⟨same, within.mp member⟩

/-- The negation runs its section in the state `A`, moves before it leaves the section, and
stops in `B`, which has no when-block. -/
theorem compiled_resides_negation :
    ∃ compiled reports,
      Compile.program Source.Program.negation [] = .ok ⟨some compiled, reports⟩ ∧
        compiled.section? ((Machine.start compiled).after 8).ip = some "A" ∧
        ((Machine.start compiled).after 8).state = "A" ∧
        ((Machine.start compiled).after 13).exit = some .finalStateReached ∧
        Source.Program.negation.body? ((Machine.start compiled).after 13).state = none := by
  have named : ∀ d ∈ Source.Program.negation, d.Named := by
    simp [Source.Program.negation, Source.Definition.Named, Plain]
  obtain ⟨compiled, reports, accepted, inside, stays, exited⟩ : ∃ compiled reports,
      Compile.program Source.Program.negation [] = .ok ⟨some compiled, reports⟩ ∧
        compiled.section? ((Machine.start compiled).after 8).ip = some "A" ∧
        compiled.leaves ((Machine.start compiled).after 8).ip = false ∧
        ((Machine.start compiled).after 13).exit = some .finalStateReached :=
    ⟨_, _, rfl, by decide +kernel, by decide +kernel, by decide +kernel⟩
  refine ⟨compiled, reports, accepted, inside, ?_, exited, ?_⟩
  · exact (compiled_resides named accepted 8).1 "A" inside stays
  · rcases (compiled_resides named accepted 13).2 _ exited with ⟨-, missing⟩ | ⟨other, -⟩
    · exact missing
    · contradiction

end Statecraft
