/-
# Building commands from their parts

Sibling commands become one command: none is `noop`, one is itself, more are
`multiple`. The branches of an `if` tag with its `elif` tags fold to the right
into nested `ifElse` commands. `Command.parts` reads a body back as a list of
commands.

Key definitions: `Command.ofList`, `Command.parts`, `Branch`, `Branch.chain`,
`Branch.fold`.
Key theorems: `Command.parts_ofList`, `Branch.chain_append`.
-/
import ClearSilver.Tree.Basic

namespace ClearSilver

namespace Command

/-- Sibling commands as one command. -/
def ofList : List Command → Command
  | [] => .noop
  | [c] => c
  | cs => .multiple cs

/-- A body as the list of its commands. -/
def parts : Command → List Command
  | .noop => []
  | .multiple cs => cs
  | c => [c]

theorem parts_ofList : ∀ cs : List Command, (∀ c ∈ cs, parts c = [c]) → (ofList cs).parts = cs
  | [], _ => rfl
  | [c], h => h c (List.mem_singleton.mpr rfl)
  | _ :: _ :: _, _ => rfl

end Command

/-- A branch of an `if` tag: where its tag begins, its condition and its
block. -/
structure Branch where
  position : Position
  condition : Expr
  block : Command

namespace Branch

/-- The branches tried one after the other, then `otherwise`. -/
def chain (branches : List Branch) (otherwise : Command) : Command :=
  branches.foldr (fun b rest => .ifElse b.position b.condition b.block rest) otherwise

/-- A chain without a branch has no tag to stand for it. -/
inductive ChainFault
  | noBranch
deriving DecidableEq

def ChainFault.message : ChainFault → Text
  | noBranch => "an if chain needs at least one branch"

/-- The branches of an `if` tag and the body of its `else` tag as one command. -/
def fold (branches : List Branch) (otherwise : Option Command) : Except ChainFault Command :=
  if branches.isEmpty then .error .noBranch else .ok (chain branches (otherwise.getD .noop))

theorem chain_append (bs cs : List Branch) (otherwise : Command) :
    chain (bs ++ cs) otherwise = chain bs (chain cs otherwise) := by
  simp [chain]

end Branch
end ClearSilver
