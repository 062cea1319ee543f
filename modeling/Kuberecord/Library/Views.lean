import Kuberecord.Library.Threads

/-!
A system seen through a protocol. If the code of every thread keeps to the protocol, each step
of the machine is a move on phases, and invariants need not look at code again.
-/

namespace Threads

variable {Op : Type} {Ans : Op → Type} {α Tid Boot In Env σ φ : Type} [DecidableEq Tid]

section Views

variable (M : Machine Op Ans α Tid Boot In Env σ) (P : Protocol Op Ans φ) (p₀ : Tid → φ) (Q : Tid →
  α → φ → Prop)

/--
A system seen through a protocol: the phase each running thread has reached instead of its code.
-/
structure View (Ans : Op → Type) (Tid σ φ : Type) where
  phase : Tid → Option φ
  shared : σ
  log : List (LogEntry Ans Tid)

def System.view (s : System Op Ans α Tid σ) : View Ans Tid σ φ where
  phase t := (s.threads t).map (fun th => P.after (p₀ t) th.trace)
  shared := s.shared
  log := s.log

def System.Conforms (s : System Op Ans α Tid σ) : Prop :=
  ∀ t th, s.threads t = some th → P.Obeys th.code (P.after (p₀ t) th.trace) (Q t)

/-- Whatever a thread is started with keeps to the protocol, given answers as it expects them. -/
structure Machine.Safe : Prop where
  start : ∀ shared t b shared' code, M.start shared t b = some (shared', code) →
    P.Obeys code (p₀ t) (Q t)
  answers : ∀ shared t o i shared' a, M.exec shared t o i = some (shared', a) → P.answers o a

inductive Machine.Move (v : View Ans Tid σ φ) : Action Tid Boot (Op × In) Env → View Ans Tid σ φ → Prop
  | start (t : Tid) (b : Boot) (shared : σ) (code : Program Op Ans α) :
      v.phase t = none → M.start v.shared t b = some (shared, code) →
      Move v (.start t b) { v with shared := shared, phase := Function.update v.phase t (some (p₀ t)) }
  | exec (t : Tid) (i : In) (o : Op) (tr : List (Sigma Ans)) (shared : σ) (a : Ans o) :
      v.phase t = some (P.after (p₀ t) tr) → P.allowed (P.after (p₀ t) tr) o → P.answers o a →
      M.exec v.shared t o i = some (shared, a) →
      Move v (.exec t (o, i))
        { shared := shared
          phase := Function.update v.phase t (some (P.next (P.after (p₀ t) tr) o a))
          log := v.log ++ [{ tid := t, trace := tr, event := ⟨o, a⟩ }] }
  | finish (t : Tid) (a : α) (p : φ) : v.phase t = some p → Q t a p →
      Move v (.finish t) { v with shared := M.finish v.shared t a, phase := Function.update v.phase t none }
  | env (e : Env) (shared : σ) : M.env v.shared e = some shared → Move v (.env e) { v with shared := shared }
  | crash : Move v .crash { v with shared := M.crash v.shared, phase := fun _ => none }

end Views

namespace Machine

variable {M : Machine Op Ans α Tid Boot In Env σ} {P : Protocol Op Ans φ} {p₀ : Tid → φ}
  {Q : Tid → α → φ → Prop} {s s' : System Op Ans α Tid σ} {a : Action Tid Boot In Env}
  {as : List (Action Tid Boot In Env)} {ok : System Op Ans α Tid σ → Action Tid Boot In Env → Prop}
variable {t : Tid} {v v' : View Ans Tid σ φ}

theorem Safe.conforms (hM : M.Safe P p₀ Q) (h : s.Conforms P p₀ Q) (hst : M.Step s a s') :
    s'.Conforms P p₀ Q := by
  intro u th hu
  cases hst with
  | start t b shared code hn hs =>
    by_cases hut : u = t
    · subst hut
      simp only [Function.update_self, Option.some.injEq] at hu
      exact hu ▸ hM.start _ _ _ _ _ hs
    · simp only [Function.update_of_ne hut] at hu
      exact h u th hu
  | exec t i o k tr shared a hth hx =>
    by_cases hut : u = t
    · subst hut
      simp only [Function.update_self, Option.some.injEq] at hu
      subst hu
      simpa using (h u _ hth).2 a (hM.answers _ _ _ _ _ _ hx)
    · simp only [Function.update_of_ne hut] at hu
      exact h u th hu
  | finish t a tr hth =>
    by_cases hut : u = t
    · simp [hut] at hu
    · simp only [Function.update_of_ne hut] at hu
      exact h u th hu
  | env e shared he => exact h u th hu
  | crash => simp at hu

omit [DecidableEq Tid] in
theorem view_phase {th : Thread Op Ans α} (h : s.threads t = some th) :
    (s.view P p₀).phase t = some (P.after (p₀ t) th.trace) := by
  simp [System.view, h]

theorem phase_update (t : Tid) (o : Option (Thread Op Ans α)) (shared : σ)
    (log : List (LogEntry Ans Tid)) :
    System.view P p₀ { shared := shared, threads := Function.update s.threads t o, log := log } =
      { shared := shared
        phase := Function.update (s.view P p₀).phase t (o.map (fun th => P.after (p₀ t) th.trace))
        log := log } := by
  simp only [System.view, View.mk.injEq, and_true]
  funext u
  by_cases hut : u = t
  · subst hut
    simp
  · simp [Function.update_of_ne hut]

theorem Safe.move (hM : M.Safe P p₀ Q) (h : s.Conforms P p₀ Q) (hst : M.Step s a s') :
    ∃ d, s.deed a = some d ∧ M.Move P p₀ Q (s.view P p₀) d (s'.view P p₀) := by
  cases hst with
  | start t b shared code hn hs =>
    rw [phase_update]
    exact ⟨_, rfl, .start t b shared code (by simp [System.view, hn]) hs⟩
  | exec t i o k tr shared a hth hx =>
    rw [phase_update, Option.map_some, P.after_snoc]
    refine ⟨.exec t (o, i), by simp [System.deed, hth], ?_⟩
    exact .exec t i o tr shared a (view_phase hth) (h t _ hth).1 (hM.answers _ _ _ _ _ _ hx) hx
  | finish t a tr hth =>
    rw [phase_update]
    exact ⟨_, rfl, .finish t a _ (view_phase hth) (h t _ hth)⟩
  | env e shared he => exact ⟨_, rfl, .env e shared he⟩
  | crash => exact ⟨_, rfl, .crash⟩

theorem Move.phase_of_ne {d : Action Tid Boot (Op × In) Env}
    (h : M.Move P p₀ Q v d v') (ht : d.actor ≠ some t) (hc : d ≠ .crash) : v'.phase t = v.phase t := by
  have ne {u : Tid} (hu : some u ≠ some t) : t ≠ u := fun h => hu (congrArg some h.symm)
  cases h with
  | start | exec | finish => exact Function.update_of_ne (ne ht) ..
  | env => rfl
  | crash => exact absurd rfl hc

theorem Move.allowed {o : Op} {i : In} (h : M.Move P p₀ Q v (.exec t (o, i)) v') :
    ∃ tr, v.phase t = some (P.after (p₀ t) tr) ∧ P.allowed (P.after (p₀ t) tr) o := by
  cases h with
  | exec _ _ _ tr _ _ hq hall => exact ⟨tr, hq, hall⟩

theorem Move.answered {o : Op} {i : In} (h : M.Move P p₀ Q v (.exec t (o, i)) v') :
    ∃ p a, M.exec v.shared t o i = some (v'.shared, a) ∧ v'.phase t = some (P.next p o a) := by
  cases h with
  | exec _ _ _ tr _ a _ _ _ hx => exact ⟨_, a, hx, Function.update_self ..⟩

theorem Move.phase_cases {d : Action Tid Boot (Op × In) Env} {p : φ}
    (h : M.Move P p₀ Q v d v') (hp : v'.phase t = some p) :
    v.phase t = some p ∨ (∃ b, d = .start t b ∧ p = p₀ t) ∨
      ∃ tr o i a, d = .exec t (o, i) ∧ v.phase t = some (P.after (p₀ t) tr) ∧ P.allowed
        (P.after (p₀ t) tr) o ∧
        M.exec v.shared t o i = some (v'.shared, a) ∧ p = P.next (P.after (p₀ t) tr) o a := by
  cases h with
  | start u b shared code hn hs =>
    by_cases ht : t = u
    · subst ht
      simp only [Function.update_self, Option.some.injEq] at hp
      exact .inr (.inl ⟨b, rfl, hp.symm⟩)
    · simp only [Function.update_of_ne ht] at hp
      exact .inl hp
  | exec u i o tr shared a hq hall _ hx =>
    by_cases ht : t = u
    · subst ht
      simp only [Function.update_self, Option.some.injEq] at hp
      exact .inr (.inr ⟨tr, o, i, a, rfl, hq, hall, hx, hp.symm⟩)
    · simp only [Function.update_of_ne ht] at hp
      exact .inl hp
  | finish u =>
    by_cases ht : t = u
    · simp [ht] at hp
    · simp only [Function.update_of_ne ht] at hp
      exact .inl hp
  | env => exact .inl hp
  | crash => cases hp

theorem Safe.invariant_from {ψ : Type} {P' : Protocol Op Ans ψ} {p₀' : Tid → ψ} {Q' : Tid → α → ψ → Prop}
    (hM : M.Safe P p₀ Q) (hM' : M.Safe P' p₀' Q') {I : System Op Ans α Tid σ → Prop}
    (h : Runs.Run M.step ok s as s') (hc : s.Conforms P p₀ Q) (hc' : s.Conforms P' p₀' Q')
    (hmove : ∀ s a d s', I s → ok s a → s.deed a = some d →
      M.Move P p₀ Q (s.view P p₀) d (s'.view P p₀) →
      M.Move P' p₀' Q' (s.view P' p₀') d (s'.view P' p₀') → I s')
    (hI : I s) : s'.Conforms P p₀ Q ∧ s'.Conforms P' p₀' Q' ∧ I s' := by
  refine h.invariant (I := fun s => s.Conforms P p₀ Q ∧ s.Conforms P' p₀' Q' ∧ I s) ?_ ⟨hc, hc', hI⟩
  intro s a s' ⟨hc, hc', hi⟩ hok hst
  have hst := M.step_cases hst
  obtain ⟨d, hd, hm⟩ := hM.move hc hst
  obtain ⟨d', hd', hm'⟩ := hM'.move hc' hst
  obtain rfl : d = d' := Option.some.inj (hd.symm.trans hd')
  exact ⟨hM.conforms hc hst, hM'.conforms hc' hst, hmove s a d s' hi hok hd hm hm'⟩

theorem Safe.conforms_of_run (hM : M.Safe P p₀ Q) {shared : σ}
    (h : Runs.Run M.step ok { shared := shared } as s) :
    s.Conforms P p₀ Q :=
  h.invariant (fun _ _ _ hc _ hst => hM.conforms hc (M.step_cases hst)) (fun _ _ ht => by cases ht)

theorem Safe.trace_invariant (hM : M.Safe P p₀ Q) {B : Tid → φ → List (Sigma Ans) → Prop} {shared : σ}
    (h : Runs.Run M.step ok { shared := shared } as s) (hB : ∀ t, B t (p₀ t) [])
    (hnext : ∀ s t i o tr shared' a, ok s (.exec t i) → M.exec s.shared t o i = some (shared', a) →
      P.allowed (P.after (p₀ t) tr) o → P.answers o a → B t (P.after (p₀ t) tr) tr →
      B t (P.next (P.after (p₀ t) tr) o a) (tr ++ [⟨o, a⟩])) :
    (∀ t th, s.threads t = some th → B t (P.after (p₀ t) th.trace) th.trace) ∧
      ∀ x ∈ s.log, P.allowed (P.after (p₀ x.tid) x.trace) x.event.1 ∧
      B x.tid (P.after (p₀ x.tid) x.trace) x.trace := by
  induction h with
  | nil => exact ⟨fun _ _ ht => (by cases ht), fun _ hx => (by cases hx)⟩
  | @snoc s _ _ _ hrun hok hst ih =>
    have hc := hM.conforms_of_run hrun
    have keep {t t' : Tid} {x : Option (Thread Op Ans α)} {th : Thread Op Ans α} (hne : t' ≠ t)
        (hth : Function.update s.threads t x t' = some th) : B t' (P.after (p₀ t') th.trace) th.trace :=
      ih.1 t' th (by rwa [Function.update_of_ne hne] at hth)
    cases M.step_cases hst with
    | start t b shared code hn hs =>
      refine ⟨fun t' th hth => ?_, ih.2⟩
      by_cases hne : t' = t
      · subst hne
        simp only [Function.update_self, Option.some.injEq] at hth
        exact hth ▸ hB t'
      · exact keep hne hth
    | exec t i o k tr shared a hth hx =>
      have hall := (hc t _ hth).1
      have hold := ih.1 t _ hth
      refine ⟨fun t' th hth' => ?_, fun x hx' => ?_⟩
      · by_cases hne : t' = t
        · subst hne
          simp only [Function.update_self, Option.some.injEq] at hth'
          subst hth'
          rw [P.after_snoc]
          exact hnext _ t' i o tr shared a hok hx hall (hM.answers _ _ _ _ _ _ hx) hold
        · exact keep hne hth'
      · rcases List.mem_append.mp hx' with hx' | hx'
        · exact ih.2 x hx'
        · cases List.mem_singleton.mp hx'
          exact ⟨hall, hold⟩
    | finish t a tr hth =>
      refine ⟨fun t' th hth' => ?_, ih.2⟩
      by_cases hne : t' = t
      · simp [hne] at hth'
      · exact keep hne hth'
    | env => exact ih
    | crash => exact ⟨fun _ _ ht => (by cases ht), ih.2⟩

/-- The invariant rule: a step of the machine is a move of its view. -/
theorem Safe.invariant (hM : M.Safe P p₀ Q) {I : View Ans Tid σ φ → Prop} {shared : σ}
    (h : Runs.Run M.step ok { shared := shared } as s)
    (hmove : ∀ s a d v', I (s.view P p₀) → ok s a → s.deed a = some d →
      M.Move P p₀ Q (s.view P p₀) d v' → I v')
    (hI : I { shared := shared, phase := fun _ => none, log := [] }) : I (s.view P p₀) := by
  refine (h.invariant (I := fun s => s.Conforms P p₀ Q ∧
    I (s.view P p₀)) ?_ ⟨fun t th ht => by simp at ht, hI⟩).2
  intro s a s' ⟨hc, hi⟩ hok hst
  have hst := M.step_cases hst
  obtain ⟨d, hd, hm⟩ := hM.move hc hst
  exact ⟨hM.conforms hc hst, hmove s a d _ hi hok hd hm⟩

end Machine

end Threads
