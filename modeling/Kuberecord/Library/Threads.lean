import Kuberecord.Library.Program
import Kuberecord.Library.Runs
import Mathlib.Logic.Function.Basic

/-!
Threads over a shared state. Each step performs one operation of one thread, so a run is
any interleaving; every thread keeps the trace of what it did and was answered.
-/

namespace Threads

structure Machine (Op : Type) (Ans : Op → Type) (α Tid Boot In Env σ : Type) where
  start : σ → Tid → Boot → Option (σ × Program Op Ans α)
  exec : σ → Tid → (o : Op) → In → Option (σ × Ans o)
  finish : σ → Tid → α → σ
  env : σ → Env → Option σ
  crash : σ → σ

structure Thread (Op : Type) (Ans : Op → Type) (α : Type) where
  code : Program Op Ans α
  trace : List (Sigma Ans) := []

structure LogEntry {Op : Type} (Ans : Op → Type) (Tid : Type) where
  tid : Tid
  trace : List (Sigma Ans)
  event : Sigma Ans

structure System (Op : Type) (Ans : Op → Type) (α Tid σ : Type) where
  shared : σ
  threads : Tid → Option (Thread Op Ans α) := fun _ => none
  log : List (LogEntry Ans Tid) := []

inductive Action (Tid Boot In Env : Type)
  | start (t : Tid) (b : Boot)
  | exec (t : Tid) (i : In)
  | finish (t : Tid)
  | env (e : Env)
  | crash

variable {Op : Type} {Ans : Op → Type} {α Tid Boot In Env σ : Type}

def Action.plain : Action Tid Boot (Op × In) Env → Action Tid Boot In Env
  | .start t b => .start t b
  | .exec t x => .exec t x.2
  | .finish t => .finish t
  | .env e => .env e
  | .crash => .crash

def System.deed (s : System Op Ans α Tid σ) :
    Action Tid Boot In Env → Option (Action Tid Boot (Op × In) Env)
  | .start t b => some (.start t b)
  | .exec t i =>
    match s.threads t with
    | some { code := .op o _, trace := _ } => some (.exec t (o, i))
    | _ => none
  | .finish t => some (.finish t)
  | .env e => some (.env e)
  | .crash => some .crash

theorem System.plain_deed {s : System Op Ans α Tid σ} {a : Action Tid Boot In Env}
    {d : Action Tid Boot (Op × In) Env} (h : s.deed a = some d) : d.plain = a := by
  unfold deed at h
  split at h
  case h_2 t i =>
    split at h
    · cases h
      rfl
    · cases h
  all_goals cases h; rfl

theorem System.deed_exec {s : System Op Ans α Tid σ} {a : Action Tid Boot In Env} {t : Tid}
    {o : Op} {i : In} (h : s.deed a = some (.exec t (o, i))) :
    ∃ k tr, s.threads t = some { code := .op o k, trace := tr } := by
  unfold deed at h
  split at h
  case h_2 t' i' =>
    split at h
    · rename_i ht
      cases h
      exact ⟨_, _, ht⟩
    · cases h
  all_goals cases h

def Action.starts : Action Tid Boot In Env → Option Tid
  | .start t _ => some t
  | _ => none

def Action.actor : Action Tid Boot In Env → Option Tid
  | .start t _ | .exec t _ | .finish t => some t
  | .env _ | .crash => none

variable [DecidableEq Tid]

namespace Machine

variable (M : Machine Op Ans α Tid Boot In Env σ) {s s' : System Op Ans α Tid σ}
  {a : Action Tid Boot In Env} {as : List (Action Tid Boot In Env)} {t : Tid}

def step (s : System Op Ans α Tid σ) : Action Tid Boot In Env → Option (System Op Ans α Tid σ)
  | .start t b =>
    match s.threads t, M.start s.shared t b with
    | none, some (shared, code) =>
      some { s with shared := shared, threads := Function.update s.threads t (some { code := code }) }
    | _, _ => none
  | .exec t i =>
    match s.threads t with
    | some { code := .op o k, trace := tr } =>
      match M.exec s.shared t o i with
      | some (shared, a) => some {
          shared := shared
          threads := Function.update s.threads t (some { code := k a, trace := tr ++ [⟨o, a⟩] })
          log := s.log ++ [{ tid := t, trace := tr, event := ⟨o, a⟩ }] }
      | none => none
    | _ => none
  | .finish t =>
    match s.threads t with
    | some { code := .ret a, trace := _ } =>
      some { s with shared := M.finish s.shared t a, threads := Function.update s.threads t none }
    | _ => none
  | .env e => (M.env s.shared e).map (fun shared => { s with shared := shared })
  | .crash => some { s with shared := M.crash s.shared, threads := fun _ => none }

inductive Step (s : System Op Ans α Tid σ) : Action Tid Boot In Env → System Op Ans α Tid σ → Prop
  | start (t : Tid) (b : Boot) (shared : σ) (code : Program Op Ans α) :
      s.threads t = none → M.start s.shared t b = some (shared, code) →
      Step s (.start t b) { s with shared := shared, threads := Function.update s.threads t (some { code := code }) }
  | exec (t : Tid) (i : In) (o : Op) (k : Ans o →
      Program Op Ans α) (tr : List (Sigma Ans)) (shared : σ) (a : Ans o) :
      s.threads t = some { code := .op o k, trace := tr } → M.exec s.shared t o i = some (shared, a) →
      Step s (.exec t i)
        { shared := shared
          threads := Function.update s.threads t (some { code := k a, trace := tr ++ [⟨o, a⟩] })
          log := s.log ++ [{ tid := t, trace := tr, event := ⟨o, a⟩ }] }
  | finish (t : Tid) (a : α) (tr : List (Sigma Ans)) : s.threads t = some { code := .ret a, trace := tr } →
      Step s (.finish t) { s with shared := M.finish s.shared t a, threads := Function.update s.threads t none }
  | env (e : Env) (shared : σ) : M.env s.shared e = some shared → Step s (.env e) { s with shared := shared }
  | crash : Step s .crash { s with shared := M.crash s.shared, threads := fun _ => none }

theorem step_cases (h : M.step s a = some s') : M.Step s a s' := by
  cases a with
  | start t b =>
    simp only [step] at h
    split at h
    · rename_i hn hs
      cases h
      exact .start t b _ _ hn hs
    · cases h
  | exec t i =>
    simp only [step] at h
    split at h
    · rename_i hth
      split at h
      · rename_i hx
        cases h
        exact .exec t i _ _ _ _ _ hth hx
      · cases h
    · cases h
  | finish t =>
    simp only [step] at h
    split at h
    · rename_i hth
      cases h
      exact .finish t _ _ hth
    · cases h
  | env e =>
    simp only [step, Option.map_eq_some_iff] at h
    obtain ⟨shared, he, rfl⟩ := h
    exact .env e _ he
  | crash =>
    cases h
    exact .crash

variable {M} in
theorem threads_of_starts {ok : System Op Ans α Tid σ → Action Tid Boot In Env → Prop} {shared : σ}
    {p : Tid → Prop} (h : Runs.Run M.step ok { shared := shared } as s)
    (hp : ∀ a ∈ as, ∀ t ∈ a.starts, p t) (ht : ¬ p t) :
    s.threads t = none := by
  induction h with
  | nil => rfl
  | @snoc s u as a _ _ hst ih =>
    have hth := ih fun a ha => hp a (List.mem_append_left _ ha)
    have ha := hp a (List.mem_append_right _ (.head _))
    have other {t' : Tid} {x} (hne : t ≠ t') : Function.update s.threads t' x t = none := by
      rw [Function.update_of_ne hne, hth]
    cases M.step_cases hst with
    | start t' b => exact other (fun he => ht (he ▸ ha t' rfl))
    | exec _ _ _ _ _ _ _ hrun | finish _ _ _ hrun => exact other (by rintro rfl; simp [hth] at hrun)
    | env => exact hth
    | crash => rfl

variable {M} in
theorem logged_of_run {ok : System Op Ans α Tid σ → Action Tid Boot In Env → Prop} {shared : σ}
    (h : Runs.Run M.step ok { shared := shared } as s) :
    (∀ t th, s.threads t = some th → ∀ before e after, th.trace = before ++ e :: after →
      ⟨t, before, e⟩ ∈ s.log) ∧
      ∀ x ∈ s.log, ∀ before e after, x.trace = before ++ e :: after → ⟨x.tid, before, e⟩ ∈ s.log := by
  induction h with
  | nil => exact ⟨fun _ _ ht => (by cases ht), fun _ hx => (by cases hx)⟩
  | @snoc s _ _ _ _ _ hst ih =>
    have keep {t t' : Tid} {x : Option (Thread Op Ans α)} {th : Thread Op Ans α} (hne : t' ≠ t)
        (hth : Function.update s.threads t x t' = some th) :
        ∀ before e after, th.trace = before ++ e :: after → ⟨t', before, e⟩ ∈ s.log :=
      ih.1 t' th (by rwa [Function.update_of_ne hne] at hth)
    cases M.step_cases hst with
    | start t b shared code =>
      refine ⟨fun t' th hth => ?_, ih.2⟩
      by_cases hne : t' = t
      · subst hne
        simp only [Function.update_self, Option.some.injEq] at hth
        subst hth
        simp
      · exact keep hne hth
    | exec t i o k tr shared a hth hx =>
      refine ⟨fun t' th hth' before e after he => ?_, fun x hx' before e after he => ?_⟩
      · by_cases hne : t' = t
        · subst hne
          simp only [Function.update_self, Option.some.injEq] at hth'
          subst hth'
          rcases List.eq_nil_or_concat after with rfl | ⟨after, last, rfl⟩
          · obtain ⟨rfl, hlast⟩ := List.append_inj' he rfl
            cases hlast
            exact List.mem_append_right _ (.head _)
          · rw [List.concat_eq_append, ← List.cons_append, ← List.append_assoc] at he
            exact List.mem_append_left _ (ih.1 t' _ hth _ _ _ (List.append_inj' he rfl).1)
        · exact List.mem_append_left _ (keep hne hth' _ _ _ he)
      · rcases List.mem_append.mp hx' with hx' | hx'
        · exact List.mem_append_left _ (ih.2 x hx' _ _ _ he)
        · cases List.mem_singleton.mp hx'
          exact List.mem_append_left _ (ih.1 t _ hth _ _ _ he)
    | finish t a tr hth =>
      refine ⟨fun t' th hth' => ?_, ih.2⟩
      by_cases hne : t' = t
      · simp [hne] at hth'
      · exact keep hne hth'
    | env => exact ih
    | crash => exact ⟨fun _ _ ht => (by cases ht), ih.2⟩

end Machine

end Threads
