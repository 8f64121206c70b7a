import Relatedness.Percentile.Normalizer

/-! Runs of a normalizer. Whatever is done to it, it has a curve only if nothing was taken in since
its sample was last sorted, so the curve is always that of the sample as it stands. -/

namespace Relatedness.Normalizer

/-- What can be done to a normalizer. -/
inductive Operation (S : Type) where
  | observe (x : S)
  | finish
  | reset

section Finishing

variable {S G : Type} [Scale S] {n n' : Normalizer S G}

/-- The curve, if there is one, is that of the sample, and the sample is sorted. -/
def Settled (n : Normalizer S G) : Prop :=
  ∀ c, n.curve = some c → Curve.ofSorted? n.reservoir.sample.toList = some c ∧
    ∃ values : List S, n.reservoir.sample.toList = values.mergeSort Scale.totalLe

theorem settled_of_curve_eq_none (h : n.curve = none) : n.Settled := by
  intro c hc
  rw [h] at hc
  cases hc

/-- Finishing fails for an empty sample. Otherwise it sorts the sample and makes its curve. -/
theorem finish_cases (n : Normalizer S G) :
    (n.reservoir.sample = #[] ∧ n.finish = .error .emptySample) ∨
      ∃ c, Curve.ofSorted? (n.reservoir.sample.toList.mergeSort Scale.totalLe) = some c ∧
        n.finish = .ok { n with
          reservoir := { n.reservoir with
            sample := (n.reservoir.sample.toList.mergeSort Scale.totalLe).toArray }
          curve := some c } := by
  simp only [finish]
  cases hcurve : Curve.ofSorted? (n.reservoir.sample.toList.mergeSort Scale.totalLe) with
  | some c => exact .inr ⟨c, rfl, rfl⟩
  | none =>
    refine .inl ⟨?_, rfl⟩
    have hperm := n.reservoir.sample.toList.mergeSort_perm Scale.totalLe
    cases hsorted : n.reservoir.sample.toList.mergeSort Scale.totalLe with
    | nil =>
      rw [hsorted] at hperm
      exact Array.toList_eq_nil_iff.mp hperm.nil_eq.symm
    | cons x rest =>
      rw [hsorted] at hcurve
      cases hcurve

theorem settled_of_finish (h : n.finish = .ok n') : n'.Settled := by
  rcases finish_cases n with ⟨_, herror⟩ | ⟨c, hc, hok⟩
  · rw [herror] at h
    cases h
  · rw [hok] at h
    cases h
    intro c' hc'
    cases hc'
    exact ⟨hc, _, rfl⟩

end Finishing

variable {S G : Type} [Scale S] [SlotSource G]

/-- The normalizer after an operation. One that cannot be finished stays as it is. -/
def apply (n : Normalizer S G) : Operation S → Normalizer S G
  | .observe x => n.observe x
  | .finish =>
    match n.finish with
    | .ok finished => finished
    | .error _ => n
  | .reset => n.reset

def run (n : Normalizer S G) (operations : List (Operation S)) : Normalizer S G :=
  operations.foldl apply n

variable {n : Normalizer S G}

theorem Settled.apply (h : n.Settled) (operation : Operation S) : (n.apply operation).Settled := by
  cases operation with
  | observe x =>
    simp only [Normalizer.apply, observe]
    split
    · exact settled_of_curve_eq_none rfl
    · exact h
  | finish =>
    simp only [Normalizer.apply]
    split
    · exact settled_of_finish ‹_›
    · exact h
  | reset => exact settled_of_curve_eq_none rfl

theorem Settled.run (h : n.Settled) (operations : List (Operation S)) :
    (n.run operations).Settled := by
  induction operations generalizing n with
  | nil => exact h
  | cons operation rest ih => exact ih (h.apply operation)

end Relatedness.Normalizer
