import Mathlib.Order.Lattice.Nat
import Statecraft.Proofs.Building
import Statecraft.Proofs.Reachability

/-! The search goes by distance. Behind a node at some distance from the first one it queues what
is one edge farther, so along the queue the distance never falls and rises by one at most. -/
namespace Statecraft

namespace Reach

variable {r last : Reach} {next : Nat → List Nat} {queue done : List Nat} {x y : Nat}

/-- The search as a loop without a bound, which is over when the queue is empty. -/
inductive Searches (next : Nat → List Nat) : Reach → (queue : List Nat) → Reach → Prop where
  | done {r : Reach} : Searches next r [] r
  | round {r last : Reach} {x : Nat} {queue : List Nat}
      (rest : Searches next (mark (next x) r).1 (queue ++ (mark (next x) r).2) last) :
      Searches next r (x :: queue) last

theorem search_searches (fuel : Nat) (bound : r.unmarked + queue.length ≤ fuel) :
    Searches next r queue (search next fuel r queue) := by
  induction fuel generalizing r queue with
  | zero =>
    obtain rfl : queue = [] := List.length_eq_zero_iff.mp (by omega)
    exact .done
  | succ fuel ih =>
    cases queue with
    | nil => exact .done
    | cons x queue =>
      have same := (mark_marks (next x) r).unmarked
      refine .round (ih ?_)
      simp only [List.length_cons, List.length_append] at bound ⊢
      omega

/-- The number of nodes bounds the search. -/
theorem ofFirst_searches (next : Nat → List Nat) (count : Nat) :
    Searches next (mark [0] (none count)).1 (mark [0] (none count)).2 (ofFirst next count) := by
  refine search_searches count ?_
  rw [(mark_marks [0] (none count)).unmarked]
  simp [unmarked, none]

theorem mark_order (xs : List Nat) (r : Reach) :
    (mark xs r).1.order = r.order ++ (mark xs r).2 := by
  induction xs generalizing r with
  | nil => simp [mark]
  | cons x rest ih =>
    simp only [mark]
    split
    · rw [ih]
      simp [order]
    · exact ih _

theorem mark_nodup (xs : List Nat) (listed : r.Listed) (nodup : r.order.Nodup) :
    (mark xs r).1.order.Nodup := by
  induction xs generalizing r with
  | nil => exact nodup
  | cons x rest ih =>
    obtain ⟨marks, latest⟩ := r
    by_cases free : marks[x]? = some false
    · have grown : Listed ⟨marks.setIfInBounds x true, x :: latest⟩ := by
        intro y
        rw [contains_set latest (Array.getElem?_eq_some_iff.mp free).1, List.mem_cons, listed y]
      have new : x ∉ latest := by simp [← listed x, contains, free]
      simp only [mark, free, if_true]
      apply ih grown
      rw [order, List.nodup_reverse] at nodup ⊢
      exact List.nodup_cons.mpr ⟨new, nodup⟩
    · simp only [mark, free, if_false]
      exact ih listed nodup

/-- A way of so many edges leads from the first node to this one. -/
inductive Way (next : Nat → List Nat) : Nat → Nat → Prop where
  | first : Way next 0 0
  | edge {n x y : Nat} (way : Way next n x) (follows : y ∈ next x) : Way next (n + 1) y

/-- What the search keeps. The nodes were found by level, those in the queue last, and a node that
has left the queue has its successors no more than one level farther. -/
structure Spreads (next : Nat → List Nat) (level : Nat → Nat) (r : Reach) (done queue : List Nat) :
    Prop where
  listed : r.Listed
  order : r.order = done ++ queue
  nodup : r.order.Nodup
  first : 0 ∈ r.order ∧ level 0 = 0
  ways : ∀ x ∈ r.order, Way next (level x) x
  sorted : r.order.Pairwise (level · ≤ level ·)
  span : ∀ x ∈ queue.head?, ∀ y ∈ r.order, level y ≤ level x + 1
  spread : ∀ x ∈ done, ∀ y ∈ next x, y ∈ r.order ∧ level y ≤ level x + 1

namespace Spreads

variable {level : Nat → Nat}

/-- What is found behind a node is one level farther. -/
def farther (level : Nat → Nat) (x : Nat) (found : List Nat) (y : Nat) : Nat :=
  if y ∈ found then level x + 1 else level y

theorem farther_new {found : List Nat} (new : y ∈ found) : farther level x found y = level x + 1 :=
  if_pos new

theorem here (spreads : Spreads next level r done (x :: queue)) : x ∈ r.order := by
  simp [spreads.order]

theorem grows (member : y ∈ r.order) : y ∈ (mark (next x) r).1.order :=
  mark_order (next x) r ▸ List.mem_append_left _ member

/-- What was found before is not found again and keeps its level. -/
theorem farther_old (spreads : Spreads next level r done queue) (old : y ∈ r.order) :
    farther level x (mark (next x) r).2 y = level y := by
  have nodup := mark_nodup (next x) spreads.listed spreads.nodup
  rw [mark_order] at nodup
  exact if_neg fun new => (List.nodup_append.mp nodup).2.2 y old y new rfl

/-- No node is farther than one level behind the one that leaves the queue. -/
theorem farther_le (spreads : Spreads next level r done (x :: queue))
    (member : y ∈ (mark (next x) r).1.order) :
    farther level x (mark (next x) r).2 y ≤ level x + 1 := by
  rw [mark_order] at member
  rcases List.mem_append.mp member with old | new
  · rw [spreads.farther_old old]
    exact spreads.span x rfl y old
  · exact Nat.le_of_eq (farther_new new)

theorem sorted_round (spreads : Spreads next level r done (x :: queue)) :
    (mark (next x) r).1.order.Pairwise fun y z =>
      farther level x (mark (next x) r).2 y ≤ farther level x (mark (next x) r).2 z := by
  rw [mark_order]
  refine List.pairwise_append.mpr ⟨?_, ?_, fun y old z new => ?_⟩
  · refine spreads.sorted.imp_of_mem fun {y z} old behind sorted => ?_
    rwa [spreads.farther_old old, spreads.farther_old behind]
  · refine List.pairwise_of_forall_mem_list fun y new z also => ?_
    rw [farther_new new, farther_new also]
  · rw [farther_new new]
    exact spreads.farther_le (grows old)

theorem span_round (spreads : Spreads next level r done (x :: queue)) {z : Nat}
    (head : z ∈ (queue ++ (mark (next x) r).2).head?) :
    level x ≤ farther level x (mark (next x) r).2 z := by
  cases queue with
  | nil =>
    rw [List.nil_append] at head
    rw [farther_new (List.mem_of_mem_head? head)]
    exact Nat.le_succ _
  | cons w queue =>
    obtain rfl : w = z := Option.some.inj head
    have sorted := spreads.order ▸ spreads.sorted
    rw [spreads.farther_old (by simp [spreads.order])]
    exact (List.pairwise_cons.mp (List.pairwise_append.mp sorted).2.1).1 w List.mem_cons_self

theorem round (spreads : Spreads next level r done (x :: queue))
    (inside : ∀ y ∈ next x, y < r.marks.size) :
    Spreads next (farther level x (mark (next x) r).2) (mark (next x) r).1 (done ++ [x])
      (queue ++ (mark (next x) r).2) := by
  have marks := mark_marks (next x) r
  have listed := mark_listed (next x) spreads.listed
  constructor
  case listed => exact listed
  case order => simp [mark_order, spreads.order]
  case nodup => exact mark_nodup (next x) spreads.listed spreads.nodup
  case first =>
    obtain ⟨known, low⟩ := spreads.first
    exact ⟨grows known, (spreads.farther_old known).trans low⟩
  case ways =>
    intro y member
    rw [mark_order] at member
    rcases List.mem_append.mp member with old | new
    · rw [spreads.farther_old old]
      exact spreads.ways y old
    · rw [farther_new new]
      exact .edge (spreads.ways x spreads.here) (mark_within (next x) r new)
  case sorted => exact spreads.sorted_round
  case span =>
    intro z head y member
    have near := spreads.farther_le member
    have behind := spreads.span_round head
    omega
  case spread =>
    intro z member y follows
    rcases List.mem_append.mp member with before | now
    · obtain ⟨known, near⟩ := spreads.spread z before y follows
      rw [spreads.farther_old known,
        spreads.farther_old (spreads.order ▸ List.mem_append_left _ before)]
      exact ⟨grows known, near⟩
    · obtain rfl := List.mem_singleton.mp now
      have known := marks.listed y follows (inside y follows)
      rw [listed y, ← List.mem_reverse] at known
      rw [spreads.farther_old spreads.here]
      exact ⟨known, spreads.farther_le known⟩

/-- When the queue is empty everything that was found has been spread from. -/
theorem run (searches : Searches next r queue last) (spreads : Spreads next level r done queue)
    (inside : ∀ x, ∀ y ∈ next x, y < r.marks.size) :
    ∃ level, Spreads next level last last.order [] := by
  induction searches generalizing level done with
  | @done r => exact ⟨level, by simpa [spreads.order] using spreads⟩
  | @round r last x queue rest ih =>
    refine ih (spreads.round (inside x)) fun x y follows => ?_
    rw [(mark_marks _ _).size]
    exact inside x y follows

/-- Every way leads to a node that was found at a level no higher than the way is long. -/
theorem level_le (spreads : Spreads next level r r.order []) {n : Nat} (way : Way next n x) :
    x ∈ r.order ∧ level x ≤ n := by
  induction way with
  | first => exact ⟨spreads.first.1, Nat.le_of_eq spreads.first.2⟩
  | @edge n x y _ follows ih =>
    obtain ⟨known, near⟩ := spreads.spread x ih.1 y follows
    exact ⟨known, Nat.le_trans near (Nat.add_le_add_right ih.2 1)⟩

end Spreads

theorem mark_first {marks : Array Bool} {latest : List Nat} (free : marks[0]? = some false) :
    mark [0] ⟨marks, latest⟩ = (⟨marks.setIfInBounds 0 true, 0 :: latest⟩, [0]) := by
  simp only [mark, free, if_true]

/-- The search is over when it has spread from all that it found. -/
theorem ofFirst_spreads {count : Nat} (nonempty : 0 < count)
    (inside : ∀ x, ∀ y ∈ next x, y < count) :
    ∃ level, Spreads next level (ofFirst next count) (ofFirst next count).order [] := by
  have size : (mark [0] (none count)).1.marks.size = count := by
    rw [(mark_marks _ _).size]
    simp [none]
  have begins :
      Spreads next (fun _ => 0) (mark [0] (none count)).1 [] (mark [0] (none count)).2 := by
    have listed := mark_listed [0] (none_listed count)
    have free : (Array.replicate count false)[0]? = some false := by simp [nonempty]
    rw [none, mark_first free] at listed ⊢
    constructor
    case listed => exact listed
    all_goals simp [order, Way.first]
  exact begins.run (ofFirst_searches next count) (size.symm ▸ inside)

end Reach

namespace Graph

variable {g : Graph} {name : String}

theorem index?_eq_some_iff (distinct : g.names.Nodup) {place : Nat} :
    g.index? name = some place ↔ g.names[place]? = some name := by
  constructor
  · intro found
    obtain ⟨inside, here, -⟩ := List.findIdx?_eq_some_iff_getElem.mp found
    rw [names, List.getElem?_map, List.getElem?_eq_getElem inside, Option.map_some,
      of_decide_eq_true here]
  · intro here
    rw [names, List.getElem?_map, Option.map_eq_some_iff] at here
    obtain ⟨s, standing, rfl⟩ := here
    exact index?_of_getElem? distinct standing

theorem mem_nextPlaces (distinct : g.names.Nodup) {x y : Nat} :
    y ∈ g.nextPlaces x ↔ ∃ source target, g.names[x]? = some source ∧ g.names[y]? = some target ∧
      g.canMove source target = true := by
  cases standing : g.states[x]? with
  | none => simp [nextPlaces, names, standing]
  | some s =>
    have here : g.names[x]? = some s.name := by simp [names, standing]
    simp only [nextPlaces, standing, List.mem_filterMap, index?_eq_some_iff distinct, mem_targets,
      here, Option.some.injEq]
    constructor
    · rintro ⟨target, ⟨-, moves⟩, there⟩
      exact ⟨_, target, rfl, there, moves⟩
    · rintro ⟨_, target, rfl, there, moves⟩
      exact ⟨target, ⟨List.mem_of_getElem? there, moves⟩, there⟩

theorem nextPlaces_lt (distinct : g.names.Nodup) {x y : Nat} (follows : y ∈ g.nextPlaces x) :
    y < g.states.length := by
  obtain ⟨_, _, _, there, -⟩ := (mem_nextPlaces distinct).mp follows
  simpa [names] using (List.getElem?_eq_some_iff.mp there).1

/-- In a graph that was built, moves lead to states. -/
theorem Builder.Reflects.mem_of_canMove {b : Builder} {h : Builder.History} {source target : String}
    (reflects : b.Reflects h) (built : h.Built g) (moves : g.canMove source target = true) :
    target ∈ g.names := by
  have describes := reflects.described g built
  have named := (reflects.known _ _ ((describes.canMove source target).mp moves)).2
  rwa [Builder.History.names, ← describes.states] at named

/-- So many moves lead from the initial state to this one. -/
inductive Path (g : Graph) : Nat → String → Prop where
  | initial : Path g 0 g.initial.name
  | move {n : Nat} {source target : String} (path : Path g n source)
      (moves : g.canMove source target = true) : Path g (n + 1) target

noncomputable def distance (g : Graph) (name : String) : Nat := sInf {n | g.Path n name}

/-- The ways of the search are the paths of the graph. -/
theorem path_iff (distinct : g.names.Nodup)
    (known : ∀ source target, g.canMove source target = true → target ∈ g.names) {n : Nat} :
    g.Path n name ↔ ∃ place, Reach.Way g.nextPlaces n place ∧ g.names[place]? = some name := by
  constructor
  · intro path
    induction path with
    | initial => exact ⟨0, .first, rfl⟩
    | move _ moves ih =>
      obtain ⟨x, way, here⟩ := ih
      obtain ⟨y, there⟩ := List.mem_iff_getElem?.mp (known _ _ moves)
      exact ⟨y, .edge way ((mem_nextPlaces distinct).mpr ⟨_, _, here, there, moves⟩), there⟩
  · rintro ⟨place, way, here⟩
    induction way generalizing name with
    | first =>
      obtain rfl : g.initial.name = name := Option.some.inj here
      exact .initial
    | edge _ follows ih =>
      obtain ⟨source, target, before, there, moves⟩ := (mem_nextPlaces distinct).mp follows
      obtain rfl := Option.some.inj (there.symm.trans here)
      exact .move (ih before) moves

theorem distance_eq {n : Nat} (path : g.Path n name) (shortest : ∀ m, g.Path m name → n ≤ m) :
    g.distance name = n := by
  have attained : g.Path (g.distance name) name := Nat.sInf_mem (s := {n | g.Path n name}) ⟨n, path⟩
  exact Nat.le_antisymm (Nat.sInf_le path) (shortest _ attained)

theorem unreachable_eq (distinct : g.names.Nodup) :
    g.unreachable = g.names.filter (· ∉ g.reachable) := by
  have told (entry : String × Nat) (member : entry ∈ g.names.zipIdx) :
      (!g.reach.contains entry.2) = decide (entry.1 ∉ g.reachable) := by
    have here := List.mem_zipIdx_iff_getElem?.mp member
    simp [mem_reachable_of_place distinct here]
  calc g.unreachable
      = (g.names.zipIdx.filter fun entry => !g.reach.contains entry.2).map Prod.fst := rfl
    _ = (g.names.zipIdx.filter fun entry => entry.1 ∉ g.reachable).map Prod.fst := by
      rw [List.filter_congr told]
    _ = (g.names.zipIdx.map Prod.fst).filter (· ∉ g.reachable) := by
      rw [List.filter_map]
      rfl
    _ = g.names.filter (· ∉ g.reachable) := by rw [List.zipIdx_map_fst]

theorem reachable_eq (g : Graph) : g.reachable = g.reach.order.filterMap (g.names[·]?) := by
  simp only [reachable, names, List.getElem?_map]

/-- In a graph that a builder has made, the search comes to an end and finds the states that moves
lead to from the initial one, each of them once and the nearer ones first. The others stay in order
of declaration. -/
theorem reachable_exact {requests : List Builder.Request}
    (built : (Builder.empty.history requests).Built g) :
    (let found := Reach.mark [0] (Reach.none g.states.length)
     Reach.Searches g.nextPlaces found.1 found.2 g.reach) ∧
    g.reachable.Nodup ∧ (∀ name, name ∈ g.reachable ↔ ∃ n, g.Path n name) ∧
    g.reachable.Pairwise (fun a b => g.distance a ≤ g.distance b) ∧
    g.unreachable = g.names.filter (· ∉ g.reachable) := by
  have reflects := Builder.reflects_after requests
  have distinct := (reflects.described g built).distinct
  have known (source target : String) (moves : g.canMove source target = true) :
      target ∈ g.names := reflects.mem_of_canMove built moves
  obtain ⟨level, spreads⟩ :=
    Reach.ofFirst_spreads (Nat.succ_pos _) fun _ _ => nextPlaces_lt distinct
  have leads (x : Nat) (name : String) (found : x ∈ g.reach.order)
      (here : g.names[x]? = some name) : g.Path (level x) name :=
    (path_iff distinct known).mpr ⟨x, spreads.ways x found, here⟩
  have least (x n : Nat) (name : String) (here : g.names[x]? = some name) (path : g.Path n name) :
      x ∈ g.reach.order ∧ level x ≤ n := by
    obtain ⟨y, way, there⟩ := (path_iff distinct known).mp path
    exact place_unique distinct there here ▸ spreads.level_le way
  have nearest (x : Nat) (name : String) (found : x ∈ g.reach.order)
      (here : g.names[x]? = some name) : g.distance name = level x :=
    distance_eq (leads x name found here) fun n path => (least x n name here path).2
  refine ⟨Reach.ofFirst_searches _ _, ?_, fun name => ?_, ?_, unreachable_eq distinct⟩
  · rw [reachable_eq]
    exact spreads.nodup.filterMap fun x y name here there => place_unique distinct here there
  · rw [reachable_eq, List.mem_filterMap]
    constructor
    · rintro ⟨x, found, here⟩
      exact ⟨level x, leads x name found here⟩
    · rintro ⟨n, path⟩
      obtain ⟨x, -, here⟩ := (path_iff distinct known).mp path
      exact ⟨x, (least x n name here path).1, here⟩
  · rw [reachable_eq, List.pairwise_filterMap]
    refine spreads.sorted.imp_of_mem fun {x y} found behind sorted a here b there => ?_
    rw [nearest x a found here, nearest y b behind there]
    exact sorted

/-- The nearer of two states comes first, though it was declared later, and a state that only leads
into the circle is left out. -/
theorem reachable_exact_circle :
    let state (name : String) : State := ⟨name, [], .absent⟩
    let requests : List Builder.Request := [.state (state "A"), .state (state "B"),
      .state (state "C"), .state (state "D"), .move "A" "C", .move "C" "B", .move "B" "A",
      .move "B" "B", .move "D" "A", .build]
    let g : Graph := ⟨state "A", [state "B", state "C", state "D"],
      [("D", "A"), ("B", "B"), ("B", "A"), ("C", "B"), ("A", "C")]⟩
    (Builder.empty.history requests).Built g ∧ g.reachable = ["A", "C", "B"] ∧
      g.reachable.Pairwise (fun a b => g.distance a ≤ g.distance b) ∧ g.unreachable = ["D"] := by
  intro state requests g
  have built : (Builder.empty.history requests).Built g := by decide
  have search := reachable_exact built
  have found : g.reachable = ["A", "C", "B"] := by decide +kernel
  refine ⟨built, found, search.2.2.2.1, ?_⟩
  rw [search.2.2.2.2, found]
  decide

end Graph
end Statecraft
