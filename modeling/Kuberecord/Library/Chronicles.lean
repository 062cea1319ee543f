import Kuberecord.Library.Views

/-!
A protocol whose phase is the trace itself: what a program may do, given all it has been told,
and what it knows when it returns.
-/

namespace Threads

variable {Op : Type} {Ans : Op → Type} {α β γ : Type}

def Program.run (w : List (Sigma Ans) → (o : Op) → Ans o) :
    Program Op Ans α → List (Sigma Ans) → α × List (Sigma Ans)
  | .ret a, tr => (a, tr)
  | .op o k, tr => (k (w tr o)).run w (tr ++ [⟨o, w tr o⟩])

def chronicle (allowed : List (Sigma Ans) → Op → Prop) : Protocol Op Ans (List (Sigma Ans)) where
  allowed := allowed
  next tr o a := tr ++ [⟨o, a⟩]

variable {R : List (Sigma Ans) → Op → Prop} {tr tr' : List (Sigma Ans)} {x : Program Op Ans α}
  {Q : α → List (Sigma Ans) → Prop}

theorem chronicle_after : (chronicle R).after tr tr' = tr ++ tr' := by
  induction tr' generalizing tr with
  | nil => simp
  | cons e tr' ih =>
    refine (@ih (tr ++ [e])).trans ?_
    simp

namespace Protocol

theorem Obeys.run (h : (chronicle R).Obeys x tr Q) (w : List (Sigma Ans) → (o : Op) → Ans o) :
    Q (x.run w tr).1 (x.run w tr).2 := by
  induction x generalizing tr with
  | ret a => exact h
  | op o k ih => exact ih (w tr o) (h.2 (w tr o) trivial)

theorem Obeys.grows (h : (chronicle R).Obeys x tr Q) :
    (chronicle R).Obeys x tr fun a tr' => Q a tr' ∧ tr <+: tr' := by
  induction x generalizing tr with
  | ret a => exact ⟨h, List.prefix_rfl⟩
  | op o k ih =>
    refine ⟨h.1, fun a ha => (ih a (h.2 a ha)).mono _ fun b tr' hq => ⟨hq.1, ?_⟩⟩
    exact (List.prefix_append tr [⟨o, a⟩]).trans hq.2

theorem Obeys.foldlM {φ : Type} {P : Protocol Op Ans φ} {p : φ} {I : List β → γ → φ → Prop}
    {f : γ → β → Program Op Ans γ} {c : γ} {xs : List β}
    (hf : ∀ done x rest c p, xs = done ++ x :: rest → I done c p →
      P.Obeys (f c x) p fun c' p' => I (done ++ [x]) c' p')
    (h : I [] c p) : P.Obeys (xs.foldlM f c) p fun c' p' => I xs c' p' := by
  suffices go : ∀ done rest c p, xs = done ++ rest → I done c p →
      P.Obeys (rest.foldlM f c) p fun c' p' => I xs c' p' from go [] xs c p rfl h
  intro done rest
  induction rest generalizing done with
  | nil =>
    intro c p he hi
    rw [List.append_nil] at he
    exact he ▸ hi
  | cons x rest ih =>
    intro c p he hi
    exact (hf done x rest c p he hi).bind P fun c' p' => ih (done ++ [x]) c' p' (by simp [he])

end Protocol

namespace Machine

variable {Tid Boot In Env σ : Type} [DecidableEq Tid] {M : Machine Op Ans α Tid Boot In Env σ}
  {s : System Op Ans α Tid σ} {as : List (Action Tid Boot In Env)}
  {ok : System Op Ans α Tid σ → Action Tid Boot In Env → Prop} {Q : Tid → α → List (Sigma Ans) → Prop}

theorem Safe.chronicled (hM : M.Safe (chronicle R) (fun _ => []) Q) {shared : σ}
    (h : Runs.Run M.step ok { shared := shared } as s) : ∀ x ∈ s.log, R x.trace x.event.1 := by
  intro x hx
  have hall := ((hM.trace_invariant (B := fun _ _ _ => True) h (fun _ => trivial)
    (fun _ _ _ _ _ _ _ _ _ _ _ _ => trivial)).2 x hx).1
  rw [chronicle_after] at hall
  exact hall

theorem log_prefix {s' : System Op Ans α Tid σ} (h : Runs.Run M.step ok s as s') : s.log <+: s'.log := by
  induction h with
  | nil => exact List.prefix_rfl
  | snoc _ _ hstep ih =>
    cases M.step_cases hstep with
    | exec => exact ih.trans (List.prefix_append ..)
    | start | finish | env | crash => exact ih

end Machine

end Threads
