import Statecraft.Source.Expr

/-! Actions, which make up the body of a when-block. Blocks and conditionals nest. -/
namespace Statecraft.Source

mutual

inductive Action where
  /-- `state := target;` -/
  | transition (keyword : Selection) (target : Name)
  /-- `name := value;` -/
  | assignment (name : Name) (value : Expr)
  /-- `if condition { … } else { … }`, where the second branch may be missing. -/
  | conditional (keyword : Selection) (condition : Expr) (body : Block) (otherwise : Option Block)
  /-- `assert condition;` -/
  | assertion (keyword : Selection) (condition : Expr)
  /-- A block on its own. -/
  | nested (block : Block)

inductive Block where
  | braces (opening : Selection) (actions : List Action) (closing : Selection)

end

instance : Inhabited Block := ⟨.braces .absent [] .absent⟩

namespace Block

def actions : Block → List Action
  | braces _ actions _ => actions

def span : Block → Selection
  | braces opening _ closing => .cover [opening, closing]

end Block

namespace Action

def span : Action → Selection
  | transition keyword target => .cover [keyword, target.span]
  | assignment name value => .cover [name.span, value.span]
  | conditional keyword _ body otherwise =>
      .cover [keyword, (otherwise.getD body).span]
  | assertion keyword condition => .cover [keyword, condition.span]
  | nested block => block.span

end Action
end Statecraft.Source
