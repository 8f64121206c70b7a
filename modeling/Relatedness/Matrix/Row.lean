import Relatedness.FeatureVector

/-!
Rows of a sparse matrix: the columns of a row strictly ascend, so two rows can be joined in
one pass over both.
-/
namespace Relatedness

structure Row where
  id : RowId
  entries : List (FeatureId × Binary32)
  ascending : entries.Pairwise fun a b => a.1 < b.1

namespace Row

/-- Whether each column is above the one before it. -/
def columnsAscend : List (FeatureId × Binary32) → Bool
  | [] => true
  | [_] => true
  | a :: b :: rest => a.1 < b.1 && columnsAscend (b :: rest)

theorem pairwise_of_columnsAscend {l : List (FeatureId × Binary32)} (h : columnsAscend l) :
    l.Pairwise fun a b => a.1 < b.1 := by
  fun_induction columnsAscend l with
  | case1 => exact .nil
  | case2 => exact List.pairwise_singleton ..
  | case3 a b rest ih =>
    simp only [Bool.and_eq_true, decide_eq_true_eq] at h
    have tail := ih h.2
    refine .cons (fun e he => ?_) tail
    rcases List.mem_cons.1 he with rfl | he
    · exact h.1
    · exact UInt32.lt_trans h.1 (List.rel_of_pairwise_cons tail he)

/-- Of neighbours with one column keeps the last. -/
def keepLast : List (FeatureId × Binary32) → List (FeatureId × Binary32)
  | [] => []
  | [e] => [e]
  | e :: next :: rest =>
    if e.1 = next.1 then keepLast (next :: rest) else e :: keepLast (next :: rest)

theorem mem_of_mem_keepLast {e : FeatureId × Binary32} {l : List (FeatureId × Binary32)}
    (h : e ∈ keepLast l) : e ∈ l := by
  fun_induction keepLast l with
  | case1 => exact h
  | case2 => exact h
  | case3 d next rest _ ih => exact List.mem_cons_of_mem _ (ih h)
  | case4 d next rest _ ih =>
    rcases List.mem_cons.1 h with rfl | h
    · exact List.mem_cons_self
    · exact List.mem_cons_of_mem _ (ih h)

theorem pairwise_keepLast {l : List (FeatureId × Binary32)}
    (h : l.Pairwise fun a b => a.1 ≤ b.1) : (keepLast l).Pairwise fun a b => a.1 < b.1 := by
  fun_induction keepLast l with
  | case1 => exact .nil
  | case2 => exact List.pairwise_singleton ..
  | case3 d next rest _ ih => exact ih h.tail
  | case4 d next rest hne ih =>
    refine .cons (fun e he => ?_) (ih h.tail)
    have hlt : d.1 < next.1 :=
      UInt32.lt_of_le_of_ne (List.rel_of_pairwise_cons h List.mem_cons_self) hne
    rcases List.mem_cons.1 (mem_of_mem_keepLast he) with rfl | he
    · exact hlt
    · exact UInt32.lt_of_lt_of_le hlt (List.rel_of_pairwise_cons h.tail he)

/-- The row with these entries, of repeated columns the last and none that is zero. -/
def ofEntries (id : RowId) (entries : List (FeatureId × Binary32)) : Row where
  id
  entries := (keepLast (entries.mergeSort fun a b => a.1 ≤ b.1)).filter fun e => !e.2.isZero
  ascending := by
    refine (pairwise_keepLast ?_).filter _
    have h := @List.pairwise_mergeSort _ (fun a b : FeatureId × Binary32 => decide (a.1 ≤ b.1))
      (fun a b c => by simpa using UInt32.le_trans) (fun a b => by simpa using UInt32.le_total ..)
      entries
    exact h.imp (by simp)

def ofVector (id : RowId) (v : FeatureVector) : Row where
  id
  entries := v.entries
  ascending := v.weights.ordered_keys_toList.imp compareOfLessAndEq_eq_lt.mp

def toVector (r : Row) : FeatureVector := .ofEntries r.entries

def columns (r : Row) : List FeatureId := r.entries.map Prod.fst

def values (r : Row) : List Binary32 := r.entries.map Prod.snd

/-- The number of stored columns. -/
def width (r : Row) : Nat := r.entries.length

def isEmpty (r : Row) : Bool := r.entries.isEmpty

/-- The value of a column, if the row has it. -/
def get? (r : Row) (column : FeatureId) : Option Binary32 := r.entries.lookup column

variable {S : Type} [Scalar S]

def norm (r : Row) : S := Scalar.length r.values

/-- Whether two rows are numerically equal, column for column. -/
def same (a b : Row) : Bool :=
  a.id == b.id && a.columns == b.columns && (a.values.zip b.values).all fun (x, y) => x.same y

end Row
end Relatedness
