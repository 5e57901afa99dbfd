/-
# Chains of branches, undone

From a command one can step along what stands behind `otherwise`, as long as
there are `if` nodes, and note the branches that are passed (`Command.unchain`).
A chain is the one command from which as many steps as it has branches pass these
branches in order and end at what they were put in front of
(`Command.unchain_eq_some`). So no branch is lost or moved, and what is behind the
last one is untouched, also when it is an `if` node itself.

The chain comes out of a loop that goes from the last branch to the first and puts
each in front of what it has (`Branch.inFront_eq_chain`).

Key definitions: `Command.unchain`, `Branch.inFront`.
Key theorems: `Command.unchain_eq_some`, `Branch.inFront_eq_chain`,
`Branch.fold_unchained`.
-/
import ClearSilver.Tree.Build

namespace ClearSilver

namespace Command

/-- The branches that a number of steps along `otherwise` pass, and the command
where they end. -/
def unchain : (steps : Nat) → Command → Option (List Branch × Command)
  | 0, c => some ([], c)
  | steps + 1, .ifElse position condition block otherwise =>
    (unchain steps otherwise).map fun (bs, last) => (⟨position, condition, block⟩ :: bs, last)
  | _ + 1, _ => none

theorem unchain_chain (bs : List Branch) (last : Command) :
    (Branch.chain bs last).unchain bs.length = some (bs, last) := by
  induction bs with
  | nil => rfl
  | cons b bs ih =>
    change ((Branch.chain bs last).unchain bs.length).map _ = _
    rw [ih]
    rfl

/-- **Steps pass some branches and end at a command exactly from their chain.** -/
theorem unchain_eq_some {steps : Nat} {c last : Command} {bs : List Branch} :
    c.unchain steps = some (bs, last) ↔ bs.length = steps ∧ c = Branch.chain bs last := by
  constructor
  · intro h
    induction steps generalizing c bs with
    | zero =>
      obtain ⟨rfl, rfl⟩ := Prod.mk.inj (Option.some.inj h)
      exact ⟨rfl, rfl⟩
    | succ steps ih =>
      -- there is a step only from an `if` node
      cases c with
      | ifElse position condition block otherwise =>
        rw [unchain, Option.map_eq_some_iff] at h
        obtain ⟨⟨bs', last'⟩, hrest, h⟩ := h
        obtain ⟨rfl, rfl⟩ := Prod.mk.inj h
        obtain ⟨hlength, rfl⟩ := ih hrest
        exact ⟨congrArg (· + 1) hlength, rfl⟩
      | _ => cases h
  · rintro ⟨rfl, rfl⟩
    exact unchain_chain bs last

end Command

namespace Branch

/-- The branches put in front of a command one by one, the last one first. -/
def inFront (branches : List Branch) (otherwise : Command) : Command :=
  branches.reverse.foldl (fun rest b => .ifElse b.position b.condition b.block rest) otherwise

theorem inFront_eq_chain (branches : List Branch) (otherwise : Command) :
    inFront branches otherwise = chain branches otherwise := by
  rw [inFront, List.foldl_reverse, chain]

theorem fold_of_ne_nil {branches : List Branch} (h : branches ≠ []) (otherwise : Option Command) :
    fold branches otherwise = .ok (chain branches (otherwise.getD .noop)) := by
  rw [fold, if_neg (by simpa using h)]

theorem fold_eq_error {branches : List Branch} {otherwise : Option Command} {fault : ChainFault} :
    fold branches otherwise = .error fault ↔ branches = [] := by
  by_cases h : branches = []
  · simp [fold, h]
  · simp [fold_of_ne_nil h, h]

/-- **The branches fold to the right, and the fold can be undone.** Only without a
branch there is no chain. -/
theorem fold_unchained (otherwise : Option Command) :
    (∀ bs, bs ≠ [] → ∃ c, fold bs otherwise = .ok c ∧ c = inFront bs (otherwise.getD .noop) ∧
      ∀ d, d.unchain bs.length = some (bs, otherwise.getD .noop) ↔ d = c) ∧
    (∀ bs cs, bs ≠ [] → cs ≠ [] → ∃ c, fold cs otherwise = .ok c ∧
      fold (bs ++ cs) otherwise = fold bs (some c)) ∧
    ∀ bs, (∃ fault, fold bs otherwise = .error fault) ↔ bs = [] := by
  refine ⟨fun bs hbs => ?_, fun bs cs hbs hcs => ?_, fun bs => ?_⟩
  · refine ⟨_, fold_of_ne_nil hbs otherwise, (inFront_eq_chain _ _).symm, fun d => ?_⟩
    rw [Command.unchain_eq_some]
    exact and_iff_right rfl
  · refine ⟨_, fold_of_ne_nil hcs otherwise, ?_⟩
    rw [fold_of_ne_nil (List.append_ne_nil_of_left_ne_nil hbs cs), fold_of_ne_nil hbs,
      chain_append]
    rfl
  · constructor
    · rintro ⟨fault, h⟩
      exact fold_eq_error.mp h
    · rintro rfl
      exact ⟨.noBranch, rfl⟩

/-- Two branches in front of a body that is an `if` node, which comes out of a
third branch. -/
theorem fold_unchained_nested :
    let a : Branch := ⟨⟨0, 1, 1⟩, .lookup (.name "a"), .data "1"⟩
    let b : Branch := ⟨⟨12, 1, 13⟩, .lookup (.name "b"), .noop⟩
    let e : Branch := ⟨⟨25, 2, 1⟩, .string "c", .data "3"⟩
    let body : Command := .ifElse ⟨25, 2, 1⟩ (.string "c") (.data "3") .noop
    [a, b] ≠ [] ∧ [e] ≠ [] ∧ ∃ c, fold [a, b] (some body) = .ok c ∧
      c.unchain 2 = some ([a, b], body) ∧ fold [a, b, e] none = .ok c := by
  intro a b e body
  have hab : [a, b] ≠ [] := List.cons_ne_nil a [b]
  have he : [e] ≠ [] := List.cons_ne_nil e []
  obtain ⟨c, hc, -, hunchain⟩ := (fold_unchained (some body)).1 [a, b] hab
  obtain ⟨d, hd, hthree⟩ := (fold_unchained none).2.1 [a, b] [e] hab he
  obtain rfl : body = d := Except.ok.inj hd
  exact ⟨hab, he, c, hc, (hunchain c).mpr rfl, hthree.trans hc⟩

end Branch
end ClearSilver
