import Mathlib.Data.List.Basic

namespace Runs

variable {σ τ α β : Type*} {step : σ → α → Option σ} {ok ok' : σ → α → Prop} {s t u : σ} {as bs : List α}

inductive Run (step : σ → α → Option σ) (ok : σ → α → Prop) (s : σ) : List α → σ → Prop
  | nil : Run step ok s [] s
  | snoc {t u : σ} {as : List α} {a : α} :
      Run step ok s as t → ok t a → step t a = some u → Run step ok s (as ++ [a]) u

theorem Run.invariant {I : σ → Prop} (h : Run step ok s as t)
    (hstep : ∀ t a u, I t → ok t a → step t a = some u → I u) (hs : I s) : I t := by
  induction h with
  | nil => exact hs
  | snoc _ hok hst ih => exact hstep _ _ _ ih hok hst

theorem Run.mono (h : Run step ok s as t) (hok : ∀ s a, ok s a → ok' s a) : Run step ok' s as t := by
  induction h with
  | nil => exact .nil
  | snoc _ ha hst ih => exact .snoc ih (hok _ _ ha) hst

theorem Run.mono_of_run (h : Run step ok s as t)
    (hok : ∀ bs t a, bs ++ [a] <+: as → Run step ok s bs t → ok t a → ok' t a) :
    Run step ok' s as t := by
  induction h with
  | nil => exact .nil
  | @snoc t u as a hrun ha hst ih =>
    refine .snoc (ih fun bs t b hp => hok bs t b (hp.trans (List.prefix_append as [a]))) ?_ hst
    exact hok as t a (List.prefix_refl _) hrun ha

theorem Run.append (h : Run step ok s as t) (h' : Run step ok t bs u) : Run step ok s (as ++ bs) u := by
  induction h' with
  | nil => simpa using h
  | snoc _ ha hst ih => rw [← List.append_assoc]; exact .snoc ih ha hst

def guarded (step : σ → α → Option σ) (ok : σ → α → Prop) [∀ s a, Decidable (ok s a)] (s : σ) (a : α) :
    Option σ :=
  if ok s a then step s a else none

def exec (step : σ → α → Option σ) (ok : σ → α → Prop) [∀ s a, Decidable (ok s a)] :
    σ → List α → Option σ
  | s, [] => some s
  | s, a :: as => (guarded step ok s a).bind (fun t => exec step ok t as)

theorem Run.of_exec [∀ s a, Decidable (ok s a)] (h : exec step ok s as = some t) :
    Run step ok s as t := by
  induction as generalizing s with
  | nil =>
    simp only [exec, Option.some.injEq] at h
    exact h ▸ .nil
  | cons a as ih =>
    simp only [exec, Option.bind_eq_some_iff] at h
    obtain ⟨u, hu, h⟩ := h
    simp only [guarded, Option.ite_none_right_eq_some] at hu
    exact Run.append (.snoc .nil hu.1 hu.2) (ih h)

theorem Run.exists_of_exec (step : σ → α → Option σ) (ok : σ → α → Prop)
    [∀ s a, Decidable (ok s a)] (s : σ) (as : List α) (P : σ → Prop) [DecidablePred P]
    (h : (exec step ok s as).any (fun t => P t) = true) :
    ∃ t, Run step ok s as t ∧ P t := by
  obtain ⟨t, ht, hP⟩ := (Option.any_eq_true _ _).mp h
  exact ⟨t, Run.of_exec ht, of_decide_eq_true hP⟩

end Runs
