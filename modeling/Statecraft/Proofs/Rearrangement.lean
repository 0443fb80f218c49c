import Statecraft.Proofs.Acceptance
import Statecraft.Proofs.GraphMoves

/-! Where when-blocks stand makes no difference. The names they use are declared before any of
them is compiled, so programs that differ only in the order and the places of their when-blocks
are accepted together, with the same symbols and the same graph. Code and labels move, but both
machines do what the source does, and the source finds the when-block of a state wherever it
stands. -/
namespace Statecraft

namespace Source.Program

open Compile (whenBlocks mem_whenBlocks)

/-- The lists of states, the constants and the variables, in order. -/
def outline (p : Program) : Program :=
  p.filter fun
    | .whenBlock _ => false
    | .states _ | .declaration _ => true

/-- The programs have the same outline and the same when-blocks, in any order and at any
places. -/
structure Rearranges (p q : Program) : Prop where
  outline : p.outline = q.outline
  blocks : (whenBlocks p).Perm (whenBlocks q)

theorem filterMap_outline {β : Type} {f : Definition → Option β}
    (skips : ∀ b, f (.whenBlock b) = none) (p : Program) :
    p.outline.filterMap f = p.filterMap f := by
  rw [outline, List.filterMap_filter]
  congr
  funext d
  cases d with
  | whenBlock b => exact (skips b).symm
  | states | declaration => rfl

theorem names_outline (p : Program) :
    p.outline.flatMap Definition.names = p.flatMap Definition.names := by
  induction p with
  | nil => rfl
  | cons d rest ih =>
    rw [List.flatMap_cons, ← ih]
    cases d <;> rfl

theorem body?_eq_findSome? (p : Program) (state : String) :
    p.body? state =
      (whenBlocks p).findSome? fun b => if b.state.text = state then some b.body else none := by
  induction p with
  | nil => rfl
  | cons d rest ih =>
    cases d with
    | states | declaration => exact ih
    | whenBlock b =>
      simp only [body?, whenBlocks, List.findSome?_cons, List.filterMap_cons] at ih ⊢
      rw [ih]

/-- Where no two when-blocks have the same state, each is found in any order. -/
theorem findSome?_perm {as bs : List WhenBlock} (perm : as.Perm bs)
    (single : (as.map fun b => b.state.text).Nodup) (state : String) :
    (as.findSome? fun b => if b.state.text = state then some b.body else none) =
      bs.findSome? fun b => if b.state.text = state then some b.body else none := by
  induction perm with
  | nil => rfl
  | cons b _ ih =>
    rw [List.findSome?_cons, List.findSome?_cons, ih (List.nodup_cons.mp single).2]
  | swap b c rest =>
    -- At most one of the two neighbours is the when-block of the state.
    have apart : c.state.text ≠ b.state.text := by
      intro same
      exact (List.nodup_cons.mp single).1 (List.mem_map.mpr ⟨b, List.mem_cons_self, same.symm⟩)
    simp only [List.findSome?_cons]
    by_cases first : c.state.text = state
    · have other : b.state.text ≠ state := first ▸ apart.symm
      simp [first, other]
    · simp [first]
  | trans first _ ihf ihs => exact (ihf single).trans (ihs ((first.map _).nodup_iff.mp single))

namespace Rearranges

variable {p q : Program} {list : StateList} {env : Environment}

theorem symm (rearranges : p.Rearranges q) : q.Rearranges p :=
  ⟨rearranges.outline.symm, rearranges.blocks.symm⟩

theorem filterMap_eq {β : Type} {f : Definition → Option β} (rearranges : p.Rearranges q)
    (skips : ∀ b, f (.whenBlock b) = none) : p.filterMap f = q.filterMap f := by
  rw [← filterMap_outline skips p, rearranges.outline, filterMap_outline skips q]

theorem declarations_eq (rearranges : p.Rearranges q) : p.declarations = q.declarations :=
  rearranges.filterMap_eq fun _ => rfl

theorem initialState?_eq (rearranges : p.Rearranges q) : p.initialState? = q.initialState? := by
  rw [initialState?, initialState?, ← List.head?_filterMap, ← List.head?_filterMap]
  exact congrArg List.head? (rearranges.filterMap_eq fun _ => rfl)

theorem subset (rearranges : p.Rearranges q) : q ⊆ p := by
  intro d member
  cases d with
  | whenBlock b =>
    exact mem_whenBlocks.mp (rearranges.blocks.mem_iff.mpr (mem_whenBlocks.mpr member))
  | states | declaration =>
    have listed : _ ∈ q.outline := List.mem_filter.mpr ⟨member, rfl⟩
    rw [← rearranges.outline] at listed
    exact (List.mem_filter.mp listed).1

theorem complete (rearranges : p.Rearranges q) (complete : p.Complete) : q.Complete :=
  fun d member => complete d (rearranges.subset member)

theorem describes (rearranges : p.Rearranges q) (described : p.Describes list env) :
    q.Describes list env := by
  have lists : p.stateLists = q.stateLists := rearranges.filterMap_eq fun _ => rfl
  have names : p.flatMap Definition.names = q.flatMap Definition.names := by
    rw [← names_outline p, rearranges.outline, names_outline q]
  refine ⟨lists ▸ described.only, described.several, names ▸ described.distinct,
    rearranges.declarations_eq ▸ described.initializes, ?_, ?_, ?_⟩
  · intro b member
    exact described.declared b (rearranges.blocks.mem_iff.mpr member)
  · exact (rearranges.blocks.map _).nodup_iff.mp described.single
  · intro b member
    exact described.live b (rearranges.blocks.mem_iff.mpr member)

/-- The source runs as before. -/
theorem run?_eq (rearranges : p.Rearranges q) (described : p.Describes list env) (k : Nat) :
    p.run? k = q.run? k := by
  have bodies (state : String) : p.body? state = q.body? state := by
    rw [body?_eq_findSome?, body?_eq_findSome?]
    exact findSome?_perm rearranges.blocks described.single state
  induction k with
  | zero => rw [run?, run?, start?, start?, rearranges.declarations_eq, rearranges.initialState?_eq]
  | succ k ih =>
    have rounds : p.round? = q.round? := by
      funext r
      rw [round?, round?, bodies]
    rw [run?, run?, ih, rounds]

end Rearranges
end Source.Program

namespace Machine

/-- The second machine makes the stores and moves that the first one makes, up to any point, and
exits as it does: after them, for the same reason, with the same values and in the same state. -/
structure Repeats (m n : Machine) : Prop where
  changes : ∀ k, ∃ j, n.changes j = m.changes k
  exits : ∀ k reason, (m.after k).exit = some reason →
    ∃ j, (n.after j).exit = some reason ∧ n.changes j = m.changes k ∧
      (n.after j).store = (m.after k).store ∧ (n.after j).state = (m.after k).state

theorem effects_length (m : Machine) : m.effects.length ≤ 1 := by
  rw [effects]
  split
  · exact Nat.zero_le 1
  · cases m.program.code[m.ip]? with
    | none => exact Nat.zero_le 1
    | some x =>
      cases x with
      | store name =>
        rw [Option.map_some, Option.getD_some, effectsOf]
        exact Option.length_toList_le
      | location | transition => exact Nat.le_refl 1
      | push | load | unary | binary | jump | jumpIfNot | label | exit => exact Nat.zero_le 1

/-- Stores and moves come one by one. -/
theorem changes_attained (m : Machine) {n : Nat} {done : List Effect}
    (shorter : done <+: m.changes n) : ∃ k, m.changes k = done := by
  induction n with
  | zero => exact ⟨0, (List.prefix_nil.mp shorter).symm⟩
  | succ n ih =>
    by_cases early : done <+: m.changes n
    · exact ih early
    · have more : (m.changes (n + 1)).length ≤ (m.changes n).length + 1 := by
        rw [changes_add, List.length_append]
        apply Nat.add_le_add_left
        apply Nat.le_trans (List.length_filter_le _ _)
        rw [trace, trace_zero, List.append_nil]
        exact effects_length _
      rcases List.prefix_or_prefix_of_prefix shorter (m.changes_prefix (Nat.le_succ n)) with
        before | behind
      · exact absurd before early
      · -- One step adds one change at most, so what is longer than before is all there is.
        refine ⟨n + 1, (shorter.eq_of_length_le (Nat.le_trans more ?_)).symm⟩
        apply Nat.lt_of_le_of_ne behind.length_le
        intro same
        exact early (behind.eq_of_length same ▸ List.prefix_refl _)

end Machine

/-- Which names are marked does not depend on their order. -/
theorem Symbols.useAll_eq (t : Symbols) (names : List String) :
    t.useAll names =
      ⟨t.entries.map fun s => if s.name ∈ names then { s with used := true } else s⟩ := by
  induction names generalizing t with
  | nil => simp [useAll]
  | cons name rest ih =>
    rw [useAll, List.foldl_cons]
    refine (ih (t.use name)).trans ?_
    rw [use, List.map_map]
    congr 2
    funext s
    by_cases same : s.name = name <;> by_cases later : s.name ∈ rest <;> simp [same, later]

theorem Graph.edges_congr {g h : Graph} (states : g.states = h.states)
    (moves : ∀ move, move ∈ g.moves ↔ move ∈ h.moves) : g.edges = h.edges := by
  have names : g.names = h.names := congrArg (List.map State.name) states
  have targets : g.targets = h.targets := by
    funext source
    rw [Graph.targets, Graph.targets, names]
    apply List.filter_congr
    intro name _
    simp [moves]
  rw [edges, edges, names, targets]

namespace Compile

open Source (Action Block Definition WhenBlock)

variable {program other : Source.Program} {earlier reports : List Report} {p q : Program}

/-- Machines of programs with the same meaning do the same. -/
theorem Layout.repeats {graph graph' : Graph} {effects effects' : List Effect}
    {store store' : Store} (complete : program.Complete) (complete' : other.Complete)
    (layout : Layout program p graph effects store)
    (layout' : Layout other q graph' effects' store') (same : ∀ k, program.run? k = other.run? k) :
    (Machine.start p).Repeats (Machine.start q) := by
  constructor
  · -- The source is ahead of the first machine, and the second one catches up with the source.
    intro k
    obtain ⟨r, ran, shorter⟩ := changes_reflected complete layout k
    obtain ⟨r', ran', meets⟩ := run_meets complete' layout' k
    obtain rfl : r = r' := Option.some.inj (ran.symm.trans ((same k).trans ran'))
    cases meets with
    | running _ runs => exact Machine.changes_attained _ (runs.changed ▸ shorter)
    | exited runs => exact Machine.changes_attained _ (runs.changed ▸ shorter)
  · intro k reason exited
    obtain ⟨rounds, ran⟩ := exit_reflected complete layout exited
    exact exit_reached complete' layout' ((same rounds).symm.trans ran)

theorem Declared.foldl_outline (xs : Source.Program) (d : Declared) :
    xs.outline.foldl add d = xs.foldl add d := by
  induction xs generalizing d with
  | nil => rfl
  | cons x rest ih => cases x <;> exact ih _

theorem ofProgram_eq (rearranges : program.Rearranges other) :
    Declared.ofProgram program = Declared.ofProgram other := by
  rw [Declared.ofProgram, ← Declared.foldl_outline, rearranges.outline, Declared.foldl_outline]
  rfl

/-- With the when-blocks in the same order nothing changes at all. -/
theorem program_eq (rearranges : program.Rearranges other)
    (ordered : whenBlocks program = whenBlocks other) (earlier : List Report) :
    Compile.program program earlier = Compile.program other earlier := by
  simp only [Compile.program, finish, ofProgram_eq rearranges, ordered]

theorem actions_cons_used (scope : Scope) (a : Action) (rest : List Action) (counter : Nat) :
    (actions scope counter (a :: rest)).used =
      (action scope counter a).used ++
        if a.leaves then [] else (actions scope (action scope counter a).counter rest).used := by
  rw [actions, ← @action_leaves scope a counter]
  cases stops : (action scope counter a).terminator with
  | none => rfl
  | some target =>
    dsimp only
    split <;> simp

mutual

/-- Which names are looked up depends on the declared states only. -/
theorem action_used {scope scope' : Scope} (same : scope.states = scope'.states) (a : Action)
    (counter counter' : Nat) :
    (action scope counter a).used = (action scope' counter' a).used := by
  cases a with
  | transition keyword target => simp only [action, transition, same]
  | assignment | assertion => rfl
  | nested body => exact block_used same body counter counter'
  | conditional keyword test body otherwise =>
    have first := block_used same body (counter + 2) (counter' + 2)
    cases otherwise with
    | none => simp only [action, conditional, ActionCode.none, first]
    | some other =>
      have second := block_used same other (block scope (counter + 2) body).counter
        (block scope' (counter' + 2) body).counter
      simp only [action, conditional, first, second]

theorem block_used {scope scope' : Scope} (same : scope.states = scope'.states) (b : Block)
    (counter counter' : Nat) :
    (block scope counter b).used = (block scope' counter' b).used := by
  obtain ⟨_, body, _⟩ := b
  exact actions_used same body counter counter'

theorem actions_used {scope scope' : Scope} (same : scope.states = scope'.states)
    (as : List Action) (counter counter' : Nat) :
    (actions scope counter as).used = (actions scope' counter' as).used := by
  cases as with
  | nil => rfl
  | cons a rest =>
    rw [actions_cons_used, actions_cons_used, action_used same a counter counter',
      actions_used same rest]

end

theorem Sections.foldl_used {scope : Scope} (blocks : List WhenBlock) {s : Sections}
    (quiet : Quiet (blocks.foldl (add scope) s).reports) :
    (blocks.foldl (add scope) s).used =
      s.used ++ blocks.flatMap fun b => b.state.text :: (block scope 0 b.body).used := by
  induction blocks generalizing s with
  | nil => simp
  | cons b rest ih =>
    have here : Quiet (add scope s b).reports := quiet.of_prefix (foldl_reports scope rest _)
    rw [List.foldl_cons, ih quiet, (add_quiet here).1, compile, List.flatMap_cons,
      block_used rfl b.body s.counter 0, List.append_assoc]

theorem isSome_iff_accepted {c : Compiled} (result : Compile.program program earlier = .ok c) :
    c.program.isSome = true ↔
      ∃ p reports, Compile.program program earlier = .ok ⟨some p, reports⟩ := by
  constructor
  · intro present
    obtain ⟨p, found⟩ := Option.isSome_iff_exists.mp present
    exact ⟨p, c.reports, result.trans (by rw [← found])⟩
  · rintro ⟨p, reports, accepted⟩
    rw [Except.ok.inj (result.symm.trans accepted)]
    rfl

theorem accepted_used (accepted : Compile.program program earlier = .ok ⟨some p, reports⟩)
    (name : String) :
    name ∈ (sectionsOf program []).used ↔
      ∃ b ∈ whenBlocks program,
        name ∈ b.state.text :: (block (scopeOf program) 0 b.body).used := by
  obtain ⟨-, -, -, -, -, quiet, -⟩ := accepted_parts accepted
  rw [sectionsOf_earlier, quiet_append] at quiet
  rw [sectionsOf, Sections.foldl_used _ quiet.2, Sections.first, List.nil_append,
    List.mem_flatMap]

theorem symbols_eq {reports' : List Report} (rearranges : program.Rearranges other)
    (accepted : Compile.program program earlier = .ok ⟨some p, reports⟩)
    (accepted' : Compile.program other earlier = .ok ⟨some q, reports'⟩) :
    p.symbols = q.symbols := by
  have declared := ofProgram_eq rearranges
  have states : (scopeOf program).states = (scopeOf other).states := by
    rw [scopeOf, scopeOf, declared]
  have used (name : String) :
      name ∈ (sectionsOf program []).used ↔ name ∈ (sectionsOf other []).used := by
    rw [accepted_used accepted, accepted_used accepted']
    simp only [rearranges.blocks.mem_iff, block_used states _ 0 0]
  rw [accepted_symbols accepted, accepted_symbols accepted', declared, Symbols.useAll_eq,
    Symbols.useAll_eq]
  simp only [used]

theorem graph_eq {reports' : List Report} (rearranges : program.Rearranges other)
    (accepted : Compile.program program earlier = .ok ⟨some p, reports⟩)
    (accepted' : Compile.program other earlier = .ok ⟨some q, reports'⟩) :
    ∃ g h, p.graph = some g ∧ q.graph = some h ∧ g.states = h.states ∧
      ∀ move, move ∈ g.moves ↔ move ∈ h.moves := by
  obtain ⟨g, walks, states, moves⟩ := accepted_moves accepted
  obtain ⟨h, walks', states', moves'⟩ := accepted_moves accepted'
  refine ⟨g, h, walks, walks', ?_, ?_⟩
  · rw [states, states', ofProgram_eq rearranges]
  · rintro ⟨source, target⟩
    simp only [moves, moves', ← mem_whenBlocks, rearranges.blocks.mem_iff]

end Compile

/-- The programs have the same symbols and the same graph, and each of their machines does what
the other one does. -/
structure Program.Matches (p q : Program) : Prop where
  symbols : p.symbols = q.symbols
  graph : ∃ g h, p.graph = some g ∧ q.graph = some h ∧ g.states = h.states ∧ g.edges = h.edges ∧
    ∀ source target, g.canMove source target = h.canMove source target
  forward : (Machine.start p).Repeats (Machine.start q)
  backward : (Machine.start q).Repeats (Machine.start p)

theorem Compile.matches_of_rearranges {program other : Source.Program} {p q : Program}
    {earlier reports reports' : List Report} (complete : program.Complete)
    (rearranges : program.Rearranges other)
    (accepted : Compile.program program earlier = .ok ⟨some p, reports⟩)
    (accepted' : Compile.program other earlier = .ok ⟨some q, reports'⟩) : p.Matches q := by
  have complete' := rearranges.complete complete
  obtain ⟨list, env, described⟩ := accepted_describes complete accepted
  obtain ⟨graph, effects, store, layout⟩ := layout complete accepted
  obtain ⟨graph', effects', store', layout'⟩ := Compile.layout complete' accepted'
  obtain ⟨g, h, walks, walks', states, moves⟩ := graph_eq rearranges accepted accepted'
  refine ⟨symbols_eq rearranges accepted accepted', ⟨g, h, walks, walks', states, ?_, ?_⟩, ?_, ?_⟩
  · exact Graph.edges_congr states moves
  · intro source target
    rw [Graph.canMove, Graph.canMove, decide_eq_decide]
    exact moves (source, target)
  · exact layout.repeats complete complete' layout' fun k => rearranges.run?_eq described k
  · exact layout'.repeats complete' complete layout fun k => (rearranges.run?_eq described k).symm

/-- Programs that differ only in the order and the places of their when-blocks are accepted
together and then match. If the when-blocks are in the same order, the results are the same. -/
theorem compiled_rearranged {first second : Source.Program} (complete : first.Complete)
    (named : ∀ d ∈ first, d.Named) (rearranges : first.Rearranges second)
    (earlier : List Report) :
    ∃ c d, Compile.program first earlier = .ok c ∧ Compile.program second earlier = .ok d ∧
      c.program.isSome = d.program.isSome ∧
      (∀ p q, c.program = some p → d.program = some q → p.Matches q) ∧
      (Compile.whenBlocks first = Compile.whenBlocks second → c = d) := by
  have complete' := rearranges.complete complete
  have named' : ∀ d ∈ second, d.Named := fun d member => named d (rearranges.subset member)
  obtain ⟨c, result, -⟩ := Compile.program_compiles fun _ : Quiet earlier => named
  obtain ⟨d, result', -⟩ := Compile.program_compiles fun _ : Quiet earlier => named'
  refine ⟨c, d, result, result', ?_, ?_, ?_⟩
  · have formed : first.WellFormed ↔ second.WellFormed := by
      constructor
      · rintro ⟨list, env, described⟩
        exact ⟨list, env, rearranges.describes described⟩
      · rintro ⟨list, env, described⟩
        exact ⟨list, env, rearranges.symm.describes described⟩
    rw [Bool.eq_iff_iff, Compile.isSome_iff_accepted result, Compile.isSome_iff_accepted result',
      Compile.accepted_iff complete named, Compile.accepted_iff complete' named', formed]
  · rintro p q present present'
    exact Compile.matches_of_rearranges complete rearranges
      (result.trans (by rw [← present])) (result'.trans (by rw [← present']))
  · intro ordered
    exact Except.ok.inj (result.symm.trans ((Compile.program_eq rearranges ordered earlier).trans
      result'))

/-- The detour with its when-blocks in the other order, before everything they refer to. -/
def Source.Program.detourAhead : Source.Program :=
  (Source.Program.detour.drop 2).reverse ++ Source.Program.detour.take 2

/-- The sections stand at other places, and yet the assertion fails in both. -/
theorem compiled_rearranged_detour :
    ∃ p q reports reports',
      Compile.program Source.Program.detour [] = .ok ⟨some p, reports⟩ ∧
        Compile.program Source.Program.detourAhead [] = .ok ⟨some q, reports'⟩ ∧
        p.resolve? "A" ≠ q.resolve? "A" ∧ p.Matches q ∧
        ∃ k, ((Machine.start q).after k).exit = some .assertionFailed ∧
          ((Machine.start q).after k).state = "B" := by
  have complete : Source.Program.detour.Complete := by
    simp [Source.Program.detour, Source.Program.Complete, Source.Definition.Complete,
      Source.Expr.Complete, Source.Block.Complete, Source.Action.AllComplete,
      Source.Action.Complete]
  have named : ∀ d ∈ Source.Program.detour, d.Named := by
    simp [Source.Program.detour, Source.Definition.Named, Plain]
  have rearranges : Source.Program.detour.Rearranges .detourAhead := ⟨rfl, .swap _ _ _⟩
  obtain ⟨c, d, result, result', -, both, -⟩ := compiled_rearranged complete named rearranges []
  obtain ⟨p, q, reports, reports', accepted, accepted', apart, exited, current⟩ :
      ∃ p q reports reports', Compile.program Source.Program.detour [] = .ok ⟨some p, reports⟩ ∧
        Compile.program Source.Program.detourAhead [] = .ok ⟨some q, reports'⟩ ∧
        p.resolve? "A" ≠ q.resolve? "A" ∧
        ((Machine.start p).after 30).exit = some .assertionFailed ∧
        ((Machine.start p).after 30).state = "B" :=
    ⟨_, _, _, _, rfl, rfl, by decide +kernel, by decide +kernel, by decide +kernel⟩
  obtain rfl := Except.ok.inj (result.symm.trans accepted)
  obtain rfl := Except.ok.inj (result'.symm.trans accepted')
  have alike := both p q rfl rfl
  obtain ⟨k, stops, -, -, same⟩ := alike.forward.exits 30 _ exited
  exact ⟨p, q, reports, reports', accepted, accepted', apart, alike, k, stops, same.trans current⟩

end Statecraft
