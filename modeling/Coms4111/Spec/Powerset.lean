import Mathlib.Data.List.ProdSigma
import Mathlib.Data.Finset.Sort

/-!
# The power set of three words (`ec2/ec2.sql`)

The script lists the subsets of the words of `base_table` twice: with `INSERT`s into the
table `powerset`, from a row of `temp_table` that `rand()` picks, and with one query, a
`UNION` of self-joins.

Words are compared as the collation of the column compares them, here by a linear order, so
that equal words are the same. `none` is `NULL`.
-/

namespace Coms4111.Powerset

/-- A row of `powerset`, and of the query. -/
structure Row (W : Type*) where
  word1 : Option W
  word2 : Option W
  word3 : Option W
  deriving DecidableEq

/-! ## What the statements are made of -/

/-- `A left join B on …`: the row of `A` with every row of `B` that matches, or with none. -/
def leftJoin {α β : Type*} (A : List α) (B : List β) (on : α → β → Bool) : List (α × Option β) :=
  A.flatMap fun a => match B.filter (on a) with
    | [] => [(a, none)]
    | rows => rows.map fun b => (a, some b)

/-- `UNION`, which keeps one of equal rows. -/
def union {α : Type*} [DecidableEq α] (first second : List α) : List α := (first ++ second).dedup

/-- **`order by rand()`**: some order of the rows, whichever they are. -/
structure Rand (α : Type*) where
  order : List α → List α
  perm : ∀ rows, (order rows).Perm rows

variable {W : Type*} [LinearOrder W]

/-! ## The `INSERT`s -/

/-- The rows of three different words, in every order. -/
def combinations (base : List W) : List (W × W × W) :=
  (base ×ˢ base ×ˢ base).filter fun (A, B, C) => A ≠ B ∧ A ≠ C ∧ B ≠ C

/-- **`temp_table`**: `order by rand() limit 1`. -/
def tempTable (rand : Rand (W × W × W)) (base : List W) : List (W × W × W) :=
  (rand.order (combinations base)).take 1

/-- **`powerset`** after the six `INSERT`s. -/
def powersetTable (rand : Rand (W × W × W)) (base : List W) : List (Row W) :=
  let temp := tempTable rand base
  [⟨none, none, none⟩]
    ++ (leftJoin base base fun A B => A = B).map (fun (A, _) => ⟨some A, none, none⟩)
    ++ temp.map (fun (word1, word2, _) => ⟨some word1, some word2, none⟩)
    ++ temp.map (fun (word1, _, word3) => ⟨some word1, some word3, none⟩)
    ++ temp.map (fun (_, word2, word3) => ⟨some word2, some word3, none⟩)
    ++ temp.map (fun (word1, word2, word3) => ⟨some word1, some word2, some word3⟩)

/-! ## The query -/

/-- **The `UNION` query** at the end of the script. -/
def unionQuery (base : List W) : List (Row W) :=
  union (union (union
    [⟨none, none, none⟩]
    (base.map fun a => ⟨some a, none, none⟩))
    (((base ×ˢ base).filter fun (a, b) => a > b).map fun (a, b) => ⟨some a, some b, none⟩))
    (((base ×ˢ base ×ˢ base).filter fun (a, b, c) => a > b ∧ b > c).map fun (a, b, c) => ⟨some a, some b, some c⟩)

end Coms4111.Powerset
