import Kuberecord.Library.Runs

namespace Runs

variable {σ α β : Type*} {step : σ → α → Option σ} {ok : σ → α → Prop} {s t : σ} {as : List α} {a : α}

def history (step : σ → α → Option σ) (note : σ → α → Option β) : σ → List α → List β
  | _, [] => []
  | s, a :: as => (note s a).toList ++ (step s a).elim [] (history step note · as)

theorem history_append (note : σ → α → Option β) {bs : List α} (h : Run step ok s as t) :
    history step note s (as ++ bs) = history step note s as ++ history step note t bs := by
  induction h generalizing bs with
  | nil => rfl
  | @snoc t u as a _ _ hst ih =>
    rw [List.append_assoc, ih, ih, List.singleton_append, history, hst, history, hst]
    simp [history]

theorem history_snoc (note : σ → α → Option β) (h : Run step ok s as t) :
    history step note s (as ++ [a]) = history step note s as ++ (note t a).toList := by
  rw [history_append note h, history]
  cases step t a <;> simp [history]

end Runs
