import Statecraft.Proofs.Run
import Statecraft.Proofs.Layout

/-! When one program can stand for another. The second run shows the effects of the
first and nothing else, exits as it does and is never behind. A relation between the
places of the two programs proves it, if every step of the first run is one step of
the second or none at all, and the first run does not go on without the second
forever. -/
namespace Statecraft
namespace Machine

/-- The machines have the same values, location, state and exit, and the second one
executed no more instructions. -/
structure Alike (m n : Machine) : Prop where
  store : n.store = m.store
  location : n.location = m.location
  walker : n.walker = m.walker
  exit : n.exit = m.exit
  steps : n.steps ≤ m.steps

/-- The second machine never faults and does what the first one does. Every point of
one run has a point of the other with the same effects so far, and the second run
gets to it at least as early. -/
structure Refines (m n : Machine) : Prop where
  sound : ∀ k, (n.after k).fault = none
  forward : ∀ k, ∃ k' ≤ k, n.trace k' = m.trace k ∧ Alike (m.after k) (n.after k')
  backward : ∀ k', ∃ k, k' ≤ k ∧ n.trace k' = m.trace k ∧ Alike (m.after k) (n.after k')

theorem Alike.refl (m : Machine) : Alike m m := ⟨rfl, rfl, rfl, rfl, Nat.le_refl _⟩

theorem Alike.trans {l m n : Machine} (first : Alike l m) (second : Alike m n) : Alike l n :=
  ⟨second.store.trans first.store, second.location.trans first.location,
    second.walker.trans first.walker, second.exit.trans first.exit,
    Nat.le_trans second.steps first.steps⟩

theorem Refines.refl {m : Machine} (sound : ∀ k, (m.after k).fault = none) : Refines m m :=
  ⟨sound, fun k => ⟨k, Nat.le_refl k, rfl, .refl _⟩, fun k => ⟨k, Nat.le_refl k, rfl, .refl _⟩⟩

theorem Refines.trans {l m n : Machine} (first : Refines l m) (second : Refines m n) :
    Refines l n := by
  refine ⟨second.sound, ?_, ?_⟩
  · intro k
    obtain ⟨a, early, same, alike⟩ := first.forward k
    obtain ⟨b, earlier, same', alike'⟩ := second.forward a
    exact ⟨b, Nat.le_trans earlier early, same'.trans same, alike.trans alike'⟩
  · intro k
    obtain ⟨a, late, same, alike⟩ := second.backward k
    obtain ⟨b, later, same', alike'⟩ := first.backward a
    exact ⟨b, Nat.le_trans late later, same.trans same', alike'.trans alike⟩

end Machine

/-- Relates an index and the operands there in one program with those in another. -/
abbrev Correspondence := Nat → List Value → Nat → List Value → Prop

/-- Machines of the two programs that are alike and stand at corresponding places. -/
structure Paired (p q : Program) (R : Correspondence) (m n : Machine) : Prop
    extends m.Alike n where
  first : m.program = p
  second : n.program = q
  sound : n.fault = none
  related : m.exit = none → R m.ip m.stack n.ip n.stack

/-- Both machines make the next step, or the first one goes on alone without an
effect and further down its code. -/
def Keeps (p q : Program) (R : Correspondence) (m n : Machine) : Prop :=
  Paired p q R m.stepped n.stepped ∧ n.effects = m.effects ∨
    Paired p q R m.stepped n ∧ m.effects = [] ∧ m.ip < p.size ∧ m.ip < m.stepped.ip

/-- Corresponding places lead to corresponding places, from the start on. -/
structure Simulates (p q : Program) (R : Correspondence) : Prop where
  graph : q.graph = p.graph
  start : R 0 [] 0 []
  step : ∀ m n, Paired p q R m n → m.stopped = false → m.stepped.fault = none → Keeps p q R m n

namespace Simulates

variable {p q : Program} {R : Correspondence} {m n : Machine}

/-- A machine that stopped without a fault exited, and so did the other one. -/
theorem both_stopped (paired : Paired p q R m n) (stopped : m.stopped = true)
    (sound : m.fault = none) : n.stopped = true := by
  simp only [Machine.stopped, sound, Option.isSome_none, Bool.or_false] at stopped
  simp [Machine.stopped, paired.exit, stopped]

/-- The second run has a point for every point of the first. -/
theorem forward (simulates : Simulates p q R) (paired : Paired p q R m n)
    (sound : ∀ k, (m.after k).fault = none) (k : Nat) :
    ∃ k' ≤ k, n.trace k' = m.trace k ∧ Paired p q R (m.after k) (n.after k') := by
  induction k generalizing m n with
  | zero => exact ⟨0, Nat.le_refl 0, rfl, paired⟩
  | succ k ih =>
    cases stopped : m.stopped with
    | true =>
      refine ⟨0, Nat.zero_le _, ?_, ?_⟩
      · rw [Machine.trace_of_stopped stopped, Machine.trace_zero]
      · rwa [Machine.after_of_stopped stopped]
    | false =>
      have later : ∀ k, (m.stepped.after k).fault = none := fun k => sound (k + 1)
      rcases simulates.step m n paired stopped (sound 1) with ⟨next, same⟩ | ⟨next, silent, -⟩
      · obtain ⟨k', early, traced, reached⟩ := ih next later
        exact ⟨k' + 1, by omega, by simp only [Machine.trace, same, traced], reached⟩
      · obtain ⟨k', early, traced, reached⟩ := ih next later
        exact ⟨k', by omega, by simp only [Machine.trace, silent, traced, List.nil_append], reached⟩

/-- The first run catches up with one step of the second. -/
theorem catches_up (simulates : Simulates p q R) (paired : Paired p q R m n)
    (sound : ∀ k, (m.after k).fault = none) :
    ∃ k, 0 < k ∧ m.trace k = n.effects ∧ Paired p q R (m.after k) n.stepped := by
  -- The distance to the end of the code bounds how long it goes on alone.
  induction distance : p.size - m.ip using Nat.strongRecOn generalizing m with
  | ind d ih =>
    cases stopped : m.stopped with
    | true =>
      have other := both_stopped paired stopped (sound 0)
      refine ⟨1, Nat.one_pos, ?_, ?_⟩
      · simp [Machine.trace_of_stopped stopped, Machine.effects, other]
      · rwa [Machine.after_of_stopped stopped, Machine.stepped_of_stopped other]
    | false =>
      rcases simulates.step m n paired stopped (sound 1) with
        ⟨next, same⟩ | ⟨next, silent, inside, ahead⟩
      · exact ⟨1, Nat.one_pos, by simp [Machine.trace, same], next⟩
      · obtain ⟨k, -, traced, reached⟩ :=
          ih (p.size - m.stepped.ip) (by omega) next (fun k => sound (k + 1)) rfl
        exact ⟨k + 1, Nat.succ_pos k, by simp only [Machine.trace, silent, traced, List.nil_append],
          reached⟩

/-- The first run has a point for every point of the second. -/
theorem backward (simulates : Simulates p q R) (paired : Paired p q R m n)
    (sound : ∀ k, (m.after k).fault = none) (k' : Nat) :
    ∃ k, k' ≤ k ∧ n.trace k' = m.trace k ∧ Paired p q R (m.after k) (n.after k') := by
  induction k' generalizing m n with
  | zero => exact ⟨0, Nat.le_refl 0, rfl, paired⟩
  | succ k' ih =>
    obtain ⟨a, positive, traced, next⟩ := simulates.catches_up paired sound
    have later : ∀ k, ((m.after a).after k).fault = none := by
      intro k
      rw [← Machine.after_add]
      exact sound (a + k)
    obtain ⟨b, late, traced', reached⟩ := ih next later
    refine ⟨a + b, by omega, ?_, ?_⟩
    · rw [Machine.trace, traced', ← traced, Machine.trace_add]
    · rwa [Machine.after_add]

theorem start_paired (simulates : Simulates p q R) :
    Paired p q R (Machine.start p) (Machine.start q) := by
  refine ⟨⟨rfl, rfl, ?_, rfl, Nat.le_refl 0⟩, rfl, rfl, rfl, fun _ => simulates.start⟩
  simp [Machine.start, simulates.graph]

/-- A program that simulates one without faults can stand for it. -/
theorem refines (simulates : Simulates p q R)
    (sound : ∀ k, ((Machine.start p).after k).fault = none) :
    (Machine.start p).Refines (Machine.start q) := by
  have paired := simulates.start_paired
  refine ⟨?_, ?_, ?_⟩
  · intro k
    obtain ⟨a, -, -, reached⟩ := simulates.backward paired sound k
    exact reached.sound
  · intro k
    obtain ⟨k', early, traced, reached⟩ := simulates.forward paired sound k
    exact ⟨k', early, traced, reached.toAlike⟩
  · intro k'
    obtain ⟨k, late, traced, reached⟩ := simulates.backward paired sound k'
    exact ⟨k, late, traced, reached.toAlike⟩

end Simulates
end Statecraft
