/-
# Moving the positions of a tree

The positions of a tree can be changed all at once: forgotten, to compare
trees by what they say alone, or moved as they move when their source is read
behind another text.

Key definitions: `Position.behind`, `Command.relocate`, `Command.unplaced`.
Key theorems: `Command.relocate_id`, `Command.relocateAll_eq_map`.
-/
import ClearSilver.Tree.Basic

namespace ClearSilver

/-- Where a place of a text is when the text stands behind `before`. On its
first line the last line of `before` counts as well. -/
def Position.behind (before : Text) (p : Position) : Position :=
  let last := location before before.length
  ⟨p.offset + before.length, p.line + (last.line - 1),
    if p.line = 1 then p.column + (last.column - 1) else p.column⟩

namespace Command

mutual

/-- The same tree with each position changed by `f`. -/
def relocate (f : Position → Position) : Command → Command
  | .multiple commands => .multiple (relocateAll f commands)
  | .data text => .data text
  | .comment position text => .comment (f position) text
  | .output form position expression => .output form (f position) expression
  | .assign position target expression => .assign (f position) target expression
  | .name position target => .name (f position) target
  | .wrap form position expression body => .wrap form (f position) expression (relocate f body)
  | .bind form position target expression body =>
    .bind form (f position) target expression (relocate f body)
  | .loop position target bounds body => .loop (f position) target bounds (relocate f body)
  | .define position called parameters body =>
    .define (f position) called parameters (relocate f body)
  | .call position called arguments => .call (f position) called arguments
  | .ifElse position condition block otherwise =>
    .ifElse (f position) condition (relocate f block) (relocate f otherwise)
  | .inclusion form position target => .inclusion form (f position) target
  | .contentType position value => .contentType (f position) value
  | .inline position body => .inline (f position) (relocate f body)
  | .noop => .noop

def relocateAll (f : Position → Position) : List Command → List Command
  | [] => []
  | c :: cs => relocate f c :: relocateAll f cs

end

/-- The same tree with every position forgotten. -/
def unplaced (c : Command) : Command := c.relocate fun _ => ⟨0, 0, 0⟩

mutual

theorem relocate_id : ∀ c : Command, c.relocate id = c
  | .multiple commands => by simp [relocate, relocateAll_id commands]
  | .wrap _ _ _ body | .bind _ _ _ _ body | .loop _ _ _ body | .define _ _ _ body
  | .inline _ body => by simp [relocate, relocate_id body]
  | .ifElse _ _ block otherwise => by simp [relocate, relocate_id block, relocate_id otherwise]
  | .data _ | .comment _ _ | .output _ _ _ | .assign _ _ _ | .name _ _ | .call _ _ _
  | .inclusion _ _ _ | .contentType _ _ | .noop => by simp [relocate]

theorem relocateAll_id : ∀ cs : List Command, relocateAll id cs = cs
  | [] => rfl
  | c :: cs => by simp [relocateAll, relocate_id c, relocateAll_id cs]

end

theorem relocateAll_eq_map (f : Position → Position) : ∀ cs : List Command,
    relocateAll f cs = cs.map (relocate f)
  | [] => rfl
  | c :: cs => by simp [relocateAll, relocateAll_eq_map f cs]

end Command
end ClearSilver
