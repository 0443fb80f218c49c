import Statecraft.Proofs.Run
import Statecraft.Source.Definition

/-! What a program means, said without any code. Expressions have values over the
stored names, the body of a when-block is executed action by action, and a program
runs in rounds: the body of the current state is executed from its top, again and
again, until an assertion fails or a state without a when-block is reached. -/
namespace Statecraft.Source

/-- The value of an expression. There is none if a name has no value or an operator
is not defined on its operands. -/
def Expr.value? (store : Store) : Expr → Option Value
  | .number value _ => some (.number value)
  | .boolean value _ => some (.boolean value)
  | .string value _ => some (.string value)
  | .ref name => store.find? name.text
  | .unary op _ operand =>
      match operand.value? store with
      | none => none
      | some v => (op.meaning? v.type).map fun meaning => meaning.apply v
  | .binary op _ left right =>
      match left.value? store, right.value? store with
      | some l, some r => (op.meaning? l.type r.type).map fun meaning => meaning.apply l r
      | _, _ => none
  | .invalid => none

inductive Ending where
  /-- Control gets to the end. -/
  | finished
  /-- The rest is abandoned for another state. -/
  | moved (target : String)
  /-- An assertion is false. -/
  | failed
  /-- An expression has no value, or a condition is no truth value. -/
  | undefined

structure Execution where
  effects : List Effect
  store : Store
  ending : Ending

namespace Execution

def idle (store : Store) (ending : Ending) : Execution := ⟨[], store, ending⟩

/-- Goes on after control got to the end. -/
def andThen (x : Execution) (next : Store → Execution) : Execution :=
  match x.ending with
  | .finished => { next x.store with effects := x.effects ++ (next x.store).effects }
  | _ => x

end Execution

mutual

def Action.execute (store : Store) : Action → Execution
  | .transition _ target => ⟨[.moved target.text], store, .moved target.text⟩
  | .assignment name value =>
      match value.value? store with
      | some v => ⟨[.stored name.text v], store.insert name.text v, .finished⟩
      | none => .idle store .undefined
  | .conditional _ test body otherwise =>
      match test.value? store with
      | some (.boolean true) => body.execute store
      | some (.boolean false) =>
          match otherwise with
          | some other => other.execute store
          | none => .idle store .finished
      | _ => .idle store .undefined
  | .assertion _ test =>
      match test.value? store with
      | some (.boolean true) => .idle store .finished
      | some (.boolean false) => .idle store .failed
      | _ => .idle store .undefined
  | .nested body => body.execute store

def Block.execute (store : Store) : Block → Execution
  | .braces _ body _ => Action.executeAll store body

/-- Executes actions in order, up to the first that control does not get past. -/
def Action.executeAll (store : Store) : List Action → Execution
  | [] => .idle store .finished
  | a :: rest => (a.execute store).andThen fun store => Action.executeAll store rest

end

namespace Program

def declarations (p : Program) : List Declaration :=
  p.filterMap fun
    | .declaration x => some x
    | _ => none

def initialState? (p : Program) : Option String :=
  p.findSome? fun
    | .states list => list.states.head?.map fun s => s.name.text
    | _ => none

def body? (p : Program) (state : String) : Option Block :=
  p.findSome? fun
    | .whenBlock b => if b.state.text = state then some b.body else none
    | _ => none

end Program

def Declaration.storeAll (store : Store) : List Declaration → Option (List Effect × Store)
  | [] => some ([], store)
  | x :: rest =>
      match x.value.value? store with
      | none => none
      | some v =>
          (storeAll (store.insert x.name.text v) rest).map fun (effects, last) =>
            (.stored x.name.text v :: effects, last)

structure Progress where
  /-- The stores and moves so far. -/
  effects : List Effect
  store : Store
  state : String
  exit : Option ExitReason

namespace Program

/-- The initial values are stored and the first state is the current one. -/
def start? (p : Program) : Option Progress :=
  match Declaration.storeAll .empty p.declarations, p.initialState? with
  | some (effects, store), some state => some ⟨effects, store, state, none⟩
  | _, _ => none

/-- Executes the body of the current state once, or exits if it has none. -/
def round? (p : Program) (r : Progress) : Option Progress :=
  if r.exit.isSome then some r
  else
    match p.body? r.state with
    | none => some { r with exit := some .finalStateReached }
    | some body =>
        let x := body.execute r.store
        let next : Progress := ⟨r.effects ++ x.effects, x.store, r.state, none⟩
        match x.ending with
        | .finished => some next
        | .moved target => some { next with state := target }
        | .failed => some { next with exit := some .assertionFailed }
        | .undefined => none

/-- How far the program has come after some rounds. There is no answer if its meaning
is not defined so far. -/
def run? (p : Program) : Nat → Option Progress
  | 0 => p.start?
  | k + 1 => (p.run? k).bind p.round?

end Program

end Statecraft.Source
