import Mathlib.Data.List.TakeWhile
import Mathlib.Logic.Function.Basic
import Statecraft.Trace
import Statecraft.Proofs.Reachability
import Statecraft.Proofs.CurrentSection

/-! Recorded runs are faithful and keep apart. Several runs share one store, and their steps come
in any order. What is done with one of them leaves the machine, the listing and the rows of every
other one alone. A compiled program executes an instruction with every step until it exits, so its
session has a row for each of them until it is finished. A finished session takes no rows. -/
namespace Statecraft

namespace Machine

/-- Every step of the program executes an instruction, until it stops. -/
def Executes (p : Program) : Prop :=
  ∀ n, ((start p).after n).stopped = false → ∃ i next,
    p.code[((start p).after n).ip]? = some i ∧ ((start p).after n).execute i = .ok next

/-- The machine is where the program gets by as many steps as it counts, and did not stop on the
way. -/
structure Counts (p : Program) (m : Machine) : Prop where
  reached : m = (start p).after m.steps
  going : ∀ n < m.steps, ((start p).after n).stopped = false

variable {p : Program} {m : Machine}

theorem start_counts (p : Program) : Counts p (start p) := ⟨rfl, by simp [start]⟩

theorem after_succ (m : Machine) (n : Nat) : m.after (n + 1) = (m.after n).stepped :=
  after_add m n 1

/-- A step of a machine that has not stopped is one more instruction, and it is told of. -/
theorem Counts.step (counts : Counts p m) (executes : Executes p) (running : m.stopped = false) :
    Counts p m.stepped ∧ m.stepped.steps = m.steps + 1 ∧
      ∃ i, p.code[m.ip]? = some i ∧ m.step.2 = some (m.stepped.event m.ip (some i)) := by
  obtain ⟨i, next, current, executed⟩ :=
    executes m.steps (counts.reached ▸ running)
  rw [← counts.reached] at current executed
  have runs : m.program = p := by
    rw [counts.reached]
    exact (Reached.after p m.steps).program
  rw [← runs] at current
  have stepped := stepped_of_ok running current executed
  have counted : m.stepped.steps = m.steps + 1 := by rw [stepped]
  refine ⟨⟨?_, ?_⟩, counted, i, runs ▸ current, ?_⟩
  · rw [counted, after_succ, ← counts.reached]
  · intro n less
    rw [counted] at less
    rcases Nat.lt_succ_iff_lt_or_eq.mp less with less | rfl
    · exact counts.going n less
    · exact counts.reached ▸ running
  · rw [stepped]
    simp [Machine.step, running, current, executed]

end Machine

namespace Trace

/-- The row of the instruction that a program executes after `n` others. -/
def Row.executed (p : Program) (n : Nat) : Row :=
  let before := (Machine.start p).after n
  let after := (Machine.start p).after (n + 1)
  { step := n + 1
    index := before.ip
    instruction := ((p.code[before.ip]?).map Instruction.text).getD ""
    state := after.state
    location := after.location.text
    exited := after.exit.isSome
    reason := (after.exit.map ExitReason.name).getD "" }

/-- The rows tell of the instructions that the machine executed, each once and in order; only the
last one can have been an exit. -/
structure Records (p : Program) (m : Machine) (rows : List Row) : Prop where
  reached : m = (Machine.start p).after m.steps
  told : rows = (List.range m.steps).map (Row.executed p)
  instructions : ∀ n < m.steps, ∃ i, p.code[((Machine.start p).after n).ip]? = some i
  last : ∀ n row, rows[n]? = some row → row.exited = true → n + 1 = rows.length

theorem records_of_counts {p : Program} {m : Machine} (counts : Machine.Counts p m)
    (executes : Machine.Executes p) :
    Records p m ((List.range m.steps).map (Row.executed p)) := by
  refine ⟨counts.reached, rfl, ?_, ?_⟩
  · intro n less
    obtain ⟨i, next, current, -⟩ := executes n (counts.going n less)
    exact ⟨i, current⟩
  · intro n row found exited
    simp only [List.getElem?_map, Option.map_eq_some_iff] at found
    obtain ⟨k, here, rfl⟩ := found
    obtain ⟨less, rfl⟩ := List.getElem?_eq_some_iff.mp here
    simp only [List.length_range, List.getElem_range] at less exited ⊢
    have stopped : ((Machine.start p).after (n + 1)).stopped = true := by
      simp only [Row.executed] at exited
      simp [Machine.stopped, exited]
    rw [List.length_map, List.length_range]
    by_contra more
    have going := counts.going (n + 1) (by omega)
    rw [stopped] at going
    contradiction

namespace Store

variable {s : Store} {id other : String} {m : Machine}

theorem find?_start_other (descriptor : String) (apart : id ≠ other) :
    (s.start id descriptor).find? other = s.find? other := by
  simp [start, find?, List.find?_append, apart]

theorem find?_start_self (descriptor : String) (new : s.find? id = none) :
    (s.start id descriptor).find? id = some { id := id, descriptor := descriptor } := by
  simp only [find?] at new
  simp [start, find?, List.find?_append, new]

theorem find?_finish_other (halt : Option Halt) (apart : id ≠ other) :
    (s.finish id m halt).find? other = s.find? other := by
  simp only [find?, finish, modify]
  induction s.started with
  | nil => rfl
  | cons info rest ih =>
    by_cases own : info.id = id
    · have kept : (info.finished m halt).id = id := own
      simp only [List.map_cons, own, if_true, List.find?_cons, kept, apart, decide_false, ih]
    · simp only [List.map_cons, own, if_false, List.find?_cons, ih]

theorem find?_finish_self (halt : Option Halt) :
    (s.finish id m halt).find? id = (s.find? id).map (·.finished m halt) := by
  simp only [find?, finish, modify]
  induction s.started with
  | nil => rfl
  | cons info rest ih =>
    by_cases own : info.id = id
    · simp [own, Info.finished]
    · simp only [List.map_cons, own, if_false, List.find?_cons, decide_false, ih]

/-- Recording changes no listing. -/
theorem find?_observer (e : StepEvent) : (observer id e s).1.find? other = s.find? other := by
  simp only [observer, record]
  split
  · rename_i recorded accepted
    split at accepted
    · contradiction
    · split at accepted
      · contradiction
      · cases accepted
        rfl
  · rfl

theorem steps_observer_other (e : StepEvent) (apart : id ≠ other) :
    (observer id e s).1.steps other = s.steps other := by
  simp only [observer, record]
  split
  · rename_i recorded accepted
    split at accepted
    · contradiction
    · split at accepted
      · contradiction
      · cases accepted
        simp [steps, apart]
  · rfl

theorem steps_observer_open (e : StepEvent) {info : Info} (listed : s.find? id = some info)
    (running : info.ended = false) :
    (observer id e s).1.steps id = s.steps id ++ [Row.ofEvent e] := by
  simp [observer, record, listed, running, steps]

theorem observer_closed (e : StepEvent) {info : Info} (listed : s.find? id = some info)
    (ended : info.ended = true) : (observer id e s).1 = s := by
  simp [observer, record, listed, ended]

/-- A step tells the store of what it executed. -/
theorem step_monitor (id : String) (m : Machine) (s : Store) :
    (Driven.step (monitor id) ⟨m, s⟩).driven =
      ⟨m.stepped, (m.step.2.map fun e => (observer id e s).1).getD s⟩ := by
  have quiet : (monitor id).logStep m m.stepped s = s := by
    simp only [Monitor.logStep, monitor]
    split <;> rfl
  simp only [Driven.step]
  rw [show m.step.1 = m.stepped from rfl, quiet]
  cases m.step.2 with
  | none => rfl
  | some e =>
    simp only [Monitor.tell, monitor, Option.map_some, Option.getD_some]
    split <;> simp_all

end Store

/-- Something that is done with one of several runs that are recorded in one store. -/
inductive Deed where
  | start (id descriptor : String) (program : Program)
  | step (id : String)
  | finish (id : String) (halt : Option Halt)

namespace Deed

def id : Deed → String
  | start id _ _ | step id | finish id _ => id

def isStep : Deed → Bool
  | step _ => true
  | _ => false

def isStart : Deed → Bool
  | start _ _ _ => true
  | _ => false

def isFinish : Deed → Bool
  | finish _ _ => true
  | _ => false

def stepsOf (id : String) (deeds : List Deed) : Nat :=
  deeds.countP fun deed => deed.isStep && decide (deed.id = id)

theorem stepsOf_cons_step (id : String) (rest : List Deed) :
    stepsOf id (.step id :: rest) = stepsOf id rest + 1 := by
  simp [stepsOf, isStep, Deed.id]

theorem stepsOf_cons_other {id : String} {deed : Deed} {rest : List Deed}
    (other : ¬(deed.isStep = true ∧ deed.id = id)) :
    stepsOf id (deed :: rest) = stepsOf id rest := by
  simp only [stepsOf]
  exact List.countP_cons_of_neg (by simpa using other)

def finishes (id : String) (deed : Deed) : Bool := deed.isFinish && decide (deed.id = id)

/-- What is done before the session is finished for the first time. -/
def untilFinish (id : String) (deeds : List Deed) : List Deed :=
  deeds.takeWhile fun deed => !deed.finishes id

theorem untilFinish_open {id : String} {deeds : List Deed} {deed : Deed}
    (member : deed ∈ untilFinish id deeds) (own : deed.id = id) : deed.isFinish = false := by
  have before := List.mem_takeWhile_imp member
  simpa [finishes, own] using before

/-- Either the session is not finished, or there is a first time. -/
theorem untilFinish_split (id : String) (deeds : List Deed) :
    (untilFinish id deeds = deeds ∧ ∀ deed ∈ deeds, deed.finishes id = false) ∨
      ∃ halt later, deeds = untilFinish id deeds ++ .finish id halt :: later := by
  induction deeds with
  | nil => exact .inl ⟨rfl, List.forall_mem_nil _⟩
  | cons deed rest ih =>
    cases ends : deed.finishes id with
    | true =>
      cases deed with
      | start | step => contradiction
      | finish other halt =>
        obtain rfl : other = id := of_decide_eq_true ends
        exact .inr ⟨halt, rest, by simp [untilFinish, ends]⟩
    | false =>
      have first : untilFinish id (deed :: rest) = deed :: untilFinish id rest := by
        simp [untilFinish, ends]
      rw [first]
      rcases ih with ⟨all, never⟩ | ⟨halt, later, split⟩
      · exact .inl ⟨by rw [all], List.forall_mem_cons.mpr ⟨ends, never⟩⟩
      · exact .inr ⟨halt, later, congrArg (deed :: ·) split⟩

end Deed

/-- A store, and the machines whose steps its sessions record. -/
structure Desk where
  store : Store
  machine : String → Option Machine

namespace Desk

def empty : Desk := ⟨.empty, fun _ => none⟩

/-- Nothing can be done with a session that was not started. -/
def act (d : Desk) : Deed → Desk
  | .start id descriptor program =>
      ⟨d.store.start id descriptor, Function.update d.machine id (some (.start program))⟩
  | .step id =>
      match d.machine id with
      | none => d
      | some m =>
          let next := (Driven.step (Store.monitor id) ⟨m, d.store⟩).driven
          ⟨next.memory, Function.update d.machine id (some next.machine)⟩
  | .finish id halt =>
      match d.machine id with
      | none => d
      | some m => { d with store := d.store.finish id m halt }

def run (d : Desk) (deeds : List Deed) : Desk := deeds.foldl act d

/-- The session has this machine, this listing and these rows. -/
structure Shows (d : Desk) (id : String) (m : Option Machine) (info : Option Info)
    (rows : List Row) : Prop where
  machine : d.machine id = m
  info : d.store.find? id = info
  rows : d.store.steps id = rows

variable {d : Desk} {id : String} {deed : Deed} {deeds : List Deed} {m : Machine} {info : Info}
  {rows : List Row}

theorem run_cons (d : Desk) (deed : Deed) (rest : List Deed) :
    d.run (deed :: rest) = (d.act deed).run rest := rfl

theorem run_append (d : Desk) (a b : List Deed) : d.run (a ++ b) = (d.run a).run b :=
  List.foldl_append

namespace Shows

/-- What is done with one session leaves every other one alone. -/
theorem other {m : Option Machine} {info : Option Info} (shows : d.Shows id m info rows)
    (apart : deed.id ≠ id) : (d.act deed).Shows id m info rows := by
  obtain ⟨machine, listed, told⟩ := shows
  cases deed with
  | start own descriptor program =>
    exact ⟨(Function.update_of_ne apart.symm _ _).trans machine,
      (Store.find?_start_other descriptor apart).trans listed, told⟩
  | step own =>
    simp only [act]
    split
    · exact ⟨machine, listed, told⟩
    · rw [Store.step_monitor]
      refine ⟨(Function.update_of_ne apart.symm _ _).trans machine, ?_, ?_⟩
      · dsimp only
        cases Machine.step _ |>.2 with
        | none => exact listed
        | some e => exact (Store.find?_observer e).trans listed
      · dsimp only
        cases Machine.step _ |>.2 with
        | none => exact told
        | some e => exact (Store.steps_observer_other e apart).trans told
  | finish own halt =>
    simp only [act]
    split
    · exact ⟨machine, listed, told⟩
    · exact ⟨machine, (Store.find?_finish_other halt apart).trans listed, told⟩

theorem others {m : Option Machine} {info : Option Info} (shows : d.Shows id m info rows)
    (apart : ∀ deed ∈ deeds, deed.id ≠ id) : (d.run deeds).Shows id m info rows := by
  induction deeds generalizing d with
  | nil => exact shows
  | cons deed rest ih =>
    obtain ⟨here, later⟩ := List.forall_mem_cons.mp apart
    exact ih (shows.other here) later

theorem start {rows : List Row} (shows : d.Shows id none none rows) (descriptor : String)
    (p : Program) :
    (d.act (.start id descriptor p)).Shows id (some (.start p))
      (some { id := id, descriptor := descriptor }) rows :=
  ⟨Function.update_self _ _ _, Store.find?_start_self descriptor shows.info, shows.rows⟩

theorem finish (shows : d.Shows id (some m) (some info) rows) (halt : Option Halt) :
    (d.act (.finish id halt)).Shows id (some m) (some (info.finished m halt)) rows := by
  simp only [act, shows.machine]
  refine ⟨shows.machine, ?_, shows.rows⟩
  rw [Store.find?_finish_self, shows.info]
  rfl

/-- A finished session takes no more rows, though its machine may go on. -/
theorem step (shows : d.Shows id (some m) (some info) rows) : ∃ rows',
    (d.act (.step id)).Shows id (some m.stepped) (some info) rows' ∧
      (info.ended = true → rows' = rows) := by
  simp only [act, shows.machine, Store.step_monitor]
  cases m.step.2 with
  | none => exact ⟨rows, ⟨Function.update_self _ _ _, shows.info, shows.rows⟩, fun _ => rfl⟩
  | some e =>
    refine ⟨_, ⟨Function.update_self _ _ _, (Store.find?_observer e).trans shows.info, rfl⟩, ?_⟩
    intro ended
    exact (congrArg (Store.steps · id) (Store.observer_closed e shows.info ended)).trans shows.rows

/-- Until then it takes a row for every instruction. -/
theorem step_open {p : Program} (shows : d.Shows id (some m) (some info) rows)
    (running : info.ended = false) (executes : Machine.Executes p) (counts : Machine.Counts p m)
    (told : rows = (List.range m.steps).map (Row.executed p)) :
    Machine.Counts p m.stepped ∧ (d.act (.step id)).Shows id (some m.stepped) (some info)
      ((List.range m.stepped.steps).map (Row.executed p)) := by
  simp only [act, shows.machine, Store.step_monitor]
  cases stopped : m.stopped with
  | true =>
    have still : m.step.2 = none := by simp [Machine.step, stopped]
    rw [Machine.stepped_of_stopped stopped, still]
    exact ⟨counts, Function.update_self _ _ _, shows.info, shows.rows.trans told⟩
  | false =>
    obtain ⟨further, counted, i, current, event⟩ := counts.step executes stopped
    refine ⟨further, Function.update_self _ _ _, ?_, ?_⟩
    · rw [event]
      exact (Store.find?_observer _).trans shows.info
    · rw [event]
      refine (Store.steps_observer_open _ shows.info running).trans ?_
      have row : Row.ofEvent (m.stepped.event m.ip (some i)) = Row.executed p m.steps := by
        simp only [Row.ofEvent, Machine.event, Row.executed, Machine.after_succ, ← counts.reached,
          counted, current]
      rw [shows.rows, told, row, counted, List.range_succ, List.map_append]
      rfl

/-- What is done later with the session moves its machine by its own steps. The listing changes
when it is finished, and then no row is added. -/
theorem run (shows : d.Shows id (some m) (some info) rows)
    (once : ∀ deed ∈ deeds, deed.id = id → deed.isStart = false) : ∃ info' rows',
      (d.run deeds).Shows id (some (m.after (Deed.stepsOf id deeds))) (some info') rows' ∧
        info'.id = info.id ∧ info'.descriptor = info.descriptor ∧
        (info.ended = true → info'.ended = true ∧ rows' = rows) ∧
        ((∀ deed ∈ deeds, deed.id = id → deed.isFinish = false) → info' = info) := by
  induction deeds generalizing d m info rows with
  | nil => exact ⟨info, rows, shows, rfl, rfl, fun ended => ⟨ended, rfl⟩, fun _ => rfl⟩
  | cons deed rest ih =>
    obtain ⟨here, later⟩ := List.forall_mem_cons.mp once
    by_cases own : deed.id = id
    · cases deed with
      | start => exact absurd (here own) (by simp [Deed.isStart])
      | step other =>
        obtain rfl : other = id := own
        obtain ⟨rows', next, closed⟩ := shows.step
        obtain ⟨info', rows'', last, same, named, ended, kept⟩ := ih next later
        rw [Deed.stepsOf_cons_step]
        refine ⟨info', rows'', last, same, named, fun shut => ?_, fun never => ?_⟩
        · obtain ⟨still, equal⟩ := ended shut
          exact ⟨still, equal.trans (closed shut)⟩
        · exact kept (List.forall_mem_cons.mp never).2
      | finish other halt =>
        obtain rfl : other = id := own
        obtain ⟨info', rows', last, same, named, ended, kept⟩ := ih (shows.finish halt) later
        rw [Deed.stepsOf_cons_other (by simp [Deed.isStep])]
        refine ⟨info', rows', last, same, named, fun _ => ended rfl, fun never => ?_⟩
        exact absurd ((List.forall_mem_cons.mp never).1 rfl) (by simp [Deed.isFinish])
    · obtain ⟨info', rows', last, same, named, ended, kept⟩ := ih (shows.other own) later
      rw [Deed.stepsOf_cons_other (by simp [own])]
      exact ⟨info', rows', last, same, named, ended, fun never =>
        kept (List.forall_mem_cons.mp never).2⟩

/-- As long as a session is not finished it tells of all that its machine executed. -/
theorem run_open {p : Program} (executes : Machine.Executes p) (counts : Machine.Counts p m)
    (running : info.ended = false)
    (shows : d.Shows id (some m) (some info) ((List.range m.steps).map (Row.executed p)))
    (once : ∀ deed ∈ deeds, deed.id = id → deed.isStart = false ∧ deed.isFinish = false) :
    ∃ last, Machine.Counts p last ∧ (d.run deeds).Shows id (some last) (some info)
      ((List.range last.steps).map (Row.executed p)) := by
  induction deeds generalizing d m with
  | nil => exact ⟨m, counts, shows⟩
  | cons deed rest ih =>
    obtain ⟨here, later⟩ := List.forall_mem_cons.mp once
    by_cases own : deed.id = id
    · cases deed with
      | start => exact absurd (here own).1 (by simp [Deed.isStart])
      | finish => exact absurd (here own).2 (by simp [Deed.isFinish])
      | step other =>
        obtain rfl : other = id := own
        obtain ⟨further, next⟩ := shows.step_open running executes counts rfl
        exact ih further next later
    · exact ih counts (shows.other own) later

/-- Once a session is finished its listing stays until it is finished again. -/
theorem run_listed {first later : List Deed} (shows : d.Shows id (some m) (some info) rows)
    (halt : Option Halt)
    (once : ∀ deed ∈ first ++ .finish id halt :: later, deed.id = id → deed.isStart = false)
    (never : ∀ deed ∈ later, deed.id = id → deed.isFinish = false) :
    (d.run first).machine id = some (m.after (Deed.stepsOf id first)) ∧
      (d.run (first ++ .finish id halt :: later)).store.find? id =
        some (info.finished (m.after (Deed.stepsOf id first)) halt) := by
  obtain ⟨first_once, rest_once⟩ := List.forall_mem_append.mp once
  obtain ⟨info', rows', shown, same, titled, -⟩ := shows.run first_once
  obtain ⟨info'', rows'', final, -, -, -, kept⟩ :=
    (shown.finish halt).run (List.forall_mem_cons.mp rest_once).2
  refine ⟨shown.machine, ?_⟩
  rw [run_append, run_cons, final.info, kept never, Info.finished, same, titled]
  rfl

/-- The rows of a session tell of what its machine executed before the session was finished, and
a finished session is closed. -/
theorem run_recorded {p : Program} (executes : Machine.Executes p) (counts : Machine.Counts p m)
    (running : info.ended = false)
    (shows : d.Shows id (some m) (some info) ((List.range m.steps).map (Row.executed p)))
    (once : ∀ deed ∈ deeds, deed.id = id → deed.isStart = false) :
    let recorded := m.after (Deed.stepsOf id (Deed.untilFinish id deeds))
    (d.run (Deed.untilFinish id deeds)).machine id = some recorded ∧
      Machine.Counts p recorded ∧
      (d.run deeds).store.steps id = (List.range recorded.steps).map (Row.executed p) ∧
      ∀ deed ∈ deeds, deed.finishes id = true →
        ∃ info', (d.run deeds).store.find? id = some info' ∧ info'.ended = true := by
  intro recorded
  have first : ∀ deed ∈ Deed.untilFinish id deeds, deed.id = id →
      deed.isStart = false ∧ deed.isFinish = false := fun deed member own =>
    ⟨once deed (List.takeWhile_subset _ member) own, Deed.untilFinish_open member own⟩
  obtain ⟨last, counted, shown⟩ := shows.run_open executes counts running first
  obtain ⟨_, _, moved, -⟩ := shows.run fun deed member own => (first deed member own).1
  obtain rfl : last = recorded := Option.some.inj (shown.machine.symm.trans moved.machine)
  refine ⟨moved.machine, counted, ?_⟩
  rcases Deed.untilFinish_split id deeds with ⟨all, never⟩ | ⟨halt, later, split⟩
  · refine ⟨all ▸ shown.rows, fun deed member ends => ?_⟩
    rw [never deed member] at ends
    contradiction
  · rw [split] at once ⊢
    have rest_once := (List.forall_mem_append.mp once).2
    obtain ⟨info', rows', final, -, -, closed, -⟩ :=
      (shown.finish halt).run (List.forall_mem_cons.mp rest_once).2
    obtain ⟨ended, same⟩ := closed rfl
    rw [run_append, run_cons]
    exact ⟨final.rows.trans same, fun _ _ _ => ⟨info', final.info, ended⟩⟩

end Shows
end Desk

end Trace

/-- The code of an accepted program does not end without an exit, and nothing in it faults. -/
theorem Compile.accepted_executes {source : Source.Program} {p : Program} {reports : List Report}
    (complete : source.Complete) (named : ∀ d ∈ source, d.Named)
    (accepted : Compile.program source [] = .ok ⟨some p, reports⟩) : Machine.Executes p := by
  intro n running
  obtain ⟨runs, place, -⟩ := accepted_housed named accepted n
  obtain ⟨i, current⟩ := place.inside
  obtain ⟨graph, effects, store, layout⟩ := Compile.layout complete accepted
  cases executed : ((Machine.start p).after n).execute i with
  | ok next => exact ⟨i, next, current, executed⟩
  | error failure =>
    rcases steady_or_exited complete layout n with steady | ⟨exited, -⟩
    · have sound := steady.sound
      obtain ⟨rest, -, stepped⟩ :=
        Machine.stepped_of_error running (runs.symm ▸ current) executed
      rw [stepped] at sound
      contradiction
    · rw [(Machine.stopped_eq_false.mp running).1] at exited
      contradiction

open Trace in
/-- Whatever else is done at the desk, the steps of a session are those of its own machine, and up to
its end they are told of by one row each. After that the rows and the listing show the machine as it
was then, and nothing more is recorded, even if the machine goes on. -/
theorem recorded_faithfully {source : Source.Program} {compiled : Program} {reports : List Report}
    (complete : source.Complete) (named : ∀ d ∈ source, d.Named)
    (accepted : Compile.program source [] = .ok ⟨some compiled, reports⟩)
    (id descriptor : String) (before during : List Deed) (fresh : ∀ deed ∈ before, deed.id ≠ id)
    (once : ∀ deed ∈ during, deed.id = id → deed.isStart = false) :
    let desk (deeds : List Deed) :=
      Desk.empty.run (before ++ .start id descriptor compiled :: deeds)
    (desk during).machine id =
        some ((Machine.start compiled).after (Deed.stepsOf id during)) ∧
    (∃ m, (desk (Deed.untilFinish id during)).machine id = some m ∧
      m = (Machine.start compiled).after (Deed.stepsOf id (Deed.untilFinish id during)) ∧
      Records compiled m ((desk during).store.steps id)) ∧
    (∀ deed ∈ during, deed.finishes id = true →
      ∀ e, (desk during).store.record id e = .error (.closed e.step)) ∧
    ∀ first halt later, during = first ++ .finish id halt :: later →
      (∀ deed ∈ later, deed.id = id → deed.isFinish = false) →
      ∃ m, (desk first).machine id = some m ∧
        m = (Machine.start compiled).after (Deed.stepsOf id first) ∧
        (desk during).store.session id = .ok
          { id := id, descriptor := descriptor, ended := true, steps := m.steps
            finalState := m.state, reason := (m.exit.map ExitReason.name).getD ""
            error := (halt.map Halt.message).getD ""
            rows := (desk during).store.steps id } := by
  intro desk
  have executes := Compile.accepted_executes complete named accepted
  -- Nothing mentions the session before it is started.
  have new : Desk.empty.Shows id none none [] := ⟨rfl, rfl, rfl⟩
  have opened := (new.others fresh).start descriptor compiled
  have desk_eq (deeds : List Deed) :
      desk deeds = ((Desk.empty.run before).act (.start id descriptor compiled)).run deeds :=
    Desk.run_append _ _ _
  obtain ⟨info, rows, last, -⟩ := opened.run once
  obtain ⟨moved, counted, told, closed⟩ :=
    opened.run_recorded executes (Machine.start_counts compiled) rfl once
  rw [desk_eq]
  refine ⟨last.machine, ⟨_, by rw [desk_eq]; exact moved, rfl, ?_⟩, ?_, ?_⟩
  · rw [told]
    exact records_of_counts counted executes
  · intro deed member ends e
    obtain ⟨info', listed, ended⟩ := closed deed member ends
    simp [Store.record, listed, ended]
  · rintro first halt later rfl never
    obtain ⟨moved, listed⟩ := opened.run_listed halt once never
    rw [desk_eq]
    refine ⟨_, moved, rfl, ?_⟩
    rw [Store.session, listed]
    rfl

open Trace in
/-- Two runs of the negation take turns. The second one is finished after two steps and goes on, as
the first one does. -/
theorem recorded_faithfully_negation :
    ∃ compiled reports,
      Compile.program Source.Program.negation [] = .ok ⟨some compiled, reports⟩ ∧
      ∃ desk m, desk = Desk.empty.run
          ([.start "a" "first" compiled, .step "a"] ++ .start "b" "second" compiled ::
            [.step "b", .step "a", .step "b", .finish "b" none, .step "a", .step "b"]) ∧
        desk.machine "b" = some ((Machine.start compiled).after 3) ∧
        m = (Machine.start compiled).after 2 ∧ m.steps = 2 ∧
        Records compiled m (desk.store.steps "b") ∧
        desk.store.session "b" = .ok
          { id := "b", descriptor := "second", ended := true, steps := 2, finalState := "A"
            rows := desk.store.steps "b" } := by
  have named : ∀ d ∈ Source.Program.negation, d.Named := by
    simp [Source.Program.negation, Source.Definition.Named, Plain]
  obtain ⟨compiled, reports, accepted, counted, current, exit⟩ : ∃ compiled reports,
      Compile.program Source.Program.negation [] = .ok ⟨some compiled, reports⟩ ∧
        ((Machine.start compiled).after 2).steps = 2 ∧
        ((Machine.start compiled).after 2).state = "A" ∧
        ((Machine.start compiled).after 2).exit = none :=
    ⟨_, _, rfl, by decide +kernel, by decide +kernel, by decide +kernel⟩
  obtain ⟨machine, ⟨_, -, rfl, records⟩, -, listed⟩ :=
    recorded_faithfully Source.Program.negation_complete named accepted "b" "second"
      [.start "a" "first" compiled, .step "a"]
      [.step "b", .step "a", .step "b", .finish "b" none, .step "a", .step "b"]
      (by simp [Deed.id]) (by simp [Deed.id, Deed.isStart])
  refine ⟨compiled, reports, accepted, _, _, rfl, machine, rfl, counted, records, ?_⟩
  obtain ⟨_, -, rfl, session⟩ :=
    listed [.step "b", .step "a", .step "b"] none [.step "a", .step "b"] rfl
      (by simp [Deed.id, Deed.isFinish])
  have taken : Deed.stepsOf "b" [.step "b", .step "a", .step "b"] = 2 := rfl
  rw [session, taken, counted, current, exit]
  rfl

open Trace in
/-- A run of the negation that is finished before its first step executes an instruction that no row
tells of. -/
theorem unrecorded_after_finish :
    Source.Program.negation.Complete ∧ (∀ d ∈ Source.Program.negation, d.Named) ∧
    ∃ compiled reports,
      Compile.program Source.Program.negation [] = .ok ⟨some compiled, reports⟩ ∧
      ∃ desk m, desk = Desk.empty.run
          [.start "a" "first" compiled, .finish "a" none, .step "a"] ∧
        desk.machine "a" = some m ∧ m = (Machine.start compiled).after 1 ∧ m.steps = 1 ∧
        desk.store.steps "a" = [] ∧ ¬Records compiled m (desk.store.steps "a") := by
  have named : ∀ d ∈ Source.Program.negation, d.Named := by
    simp [Source.Program.negation, Source.Definition.Named, Plain]
  refine ⟨Source.Program.negation_complete, named, _, _, rfl, _, _, rfl, rfl, rfl, ?_, ?_, ?_⟩
  · decide +kernel
  · decide +kernel
  · intro records
    have told := congrArg List.length records.told
    revert told
    decide +kernel

end Statecraft
