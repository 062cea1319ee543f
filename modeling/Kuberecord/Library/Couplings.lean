import Kuberecord.Library.Threads

/-!
Two runs in step with each other. Programs are coupled if they perform related operations as long as
they are given related answers; machines are coupled if their steps keep a relation of their states.
-/

namespace Threads

/-- Which operations and which answers of two runs correspond; each run has a phase of its own. -/
structure Coupling (Op : Type) (Ans : Op → Type) (φ : Type) where
  ops : Op → Op → Prop
  answers : φ → φ → Sigma Ans → Sigma Ans → Prop
  next : φ → Sigma Ans → φ

variable {Op : Type} {Ans : Op → Type} {α β φ : Type}

namespace Coupling

variable (C : Coupling Op Ans φ) {p q : φ} {R S : α → φ → α → φ → Prop}

def Rel : Program Op Ans α → φ → Program Op Ans α → φ → (α → φ → α → φ → Prop) → Prop
  | .ret a, p, y, q, R => ∃ b, y = .ret b ∧ R a p b q
  | .op o k, p, y, q, R => ∃ o' k', y = .op o' k' ∧ C.ops o o' ∧ ∀ a a', C.answers p q ⟨o, a⟩ ⟨o', a'⟩ →
      Rel (k a) (C.next p ⟨o, a⟩) (k' a') (C.next q ⟨o', a'⟩) R

theorem rel_ret {a b : α} (h : R a p b q) : C.Rel (.ret a) p (.ret b) q R := ⟨b, rfl, h⟩

theorem rel_op {o o' : Op} {k : Ans o → Program Op Ans α} {k' : Ans o' → Program Op Ans α}
    (ho : C.ops o o')
    (hk : ∀ a a', C.answers p q ⟨o, a⟩ ⟨o', a'⟩ →
      C.Rel (k a) (C.next p ⟨o, a⟩) (k' a') (C.next q ⟨o', a'⟩) R) :
    C.Rel (.op o k) p (.op o' k') q R := ⟨o', k', rfl, ho, hk⟩

theorem Rel.mono {x y : Program Op Ans α} (h : C.Rel x p y q R) (hR : ∀ a p b q, R a p b q → S a p b q) :
    C.Rel x p y q S := by
  induction x generalizing p y q with
  | ret a =>
    obtain ⟨b, rfl, hr⟩ := h
    exact C.rel_ret (hR a p b q hr)
  | op o k ih =>
    obtain ⟨o', k', rfl, ho, hk⟩ := h
    exact C.rel_op ho fun a a' ha => ih a (hk a a' ha)

theorem Rel.bind {x y : Program Op Ans α} {f g : α → Program Op Ans β} {T : β → φ → β → φ → Prop}
    (h : C.Rel x p y q R) (hf : ∀ a p b q, R a p b q → C.Rel (f a) p (g b) q T) :
    C.Rel (x >>= f) p (y >>= g) q T := by
  induction x generalizing p y q with
  | ret a =>
    obtain ⟨b, rfl, hr⟩ := h
    exact hf a p b q hr
  | op o k ih =>
    obtain ⟨o', k', rfl, ho, hk⟩ := h
    exact C.rel_op ho fun a a' ha => ih a (hk a a' ha)

theorem Rel.forM {E : β → β → Prop} {I : φ → φ → Prop} {f g : β → Program Op Ans PUnit}
    (hf : ∀ x y p q, E x y → I p q → C.Rel (f x) p (g y) q (fun _ p _ q => I p q)) {xs ys : List β}
    (h : List.Forall₂ E xs ys) (hI : I p q) :
    C.Rel (xs.forM f) p (ys.forM g) q (fun _ p _ q => I p q) := by
  induction h generalizing p q with
  | nil => exact C.rel_ret hI
  | cons hx _ ih => exact Rel.bind C (hf _ _ _ _ hx hI) fun _ _ _ _ hI => ih hI

def after (p : φ) (tr : List (Sigma Ans)) : φ := tr.foldl C.next p

@[simp]
theorem after_snoc (tr : List (Sigma Ans)) (e : Sigma Ans) :
    C.after p (tr ++ [e]) = C.next (C.after p tr) e := by
  simp [after]

end Coupling

variable {Tid Boot In Env σ : Type} [DecidableEq Tid]

section

variable (M : Machine Op Ans α Tid Boot In Env σ) (C : Coupling Op Ans φ) (p₀ : φ)
  (shares : σ → σ → Prop)
  (inputs : φ → φ → In → In → Prop) (R : Tid → α → φ → α → φ → Prop)

structure Machine.Couples : Prop where
  start : ∀ s s' t b s₁ s₁' c c', shares s s' → M.start s t b = some (s₁, c) →
    M.start s' t b = some (s₁', c') →
    shares s₁ s₁' ∧ C.Rel c p₀ c' p₀ (R t)
  exec : ∀ s s' t o o' i i' p q s₁ s₁' a a', shares s s' → C.ops o o' → inputs p q i i' →
    M.exec s t o i = some (s₁, a) → M.exec s' t o' i' = some (s₁', a') →
    shares s₁ s₁' ∧ C.answers p q ⟨o, a⟩ ⟨o', a'⟩
  finish : ∀ s s' t a p b q, shares s s' → R t a p b q → shares (M.finish s t a) (M.finish s' t b)
  env : ∀ s s' e s₁ s₁', shares s s' → M.env s e = some s₁ → M.env s' e = some s₁' → shares s₁ s₁'
  crash : ∀ s s', shares s s' → shares (M.crash s) (M.crash s')

def Machine.step₂ (x : System Op Ans α Tid σ × System Op Ans α Tid σ)
    (a : Action Tid Boot In Env × Action Tid Boot In Env) :
    Option (System Op Ans α Tid σ × System Op Ans α Tid σ) :=
  (M.step x.1 a.1).bind fun s => (M.step x.2 a.2).map (s, ·)

def InStep (x : System Op Ans α Tid σ × System Op Ans α Tid σ) :
    Action Tid Boot In Env × Action Tid Boot In Env → Prop
  | (.exec t i, a) => ∃ i', a = .exec t i' ∧ ∀ th th', x.1.threads t = some th →
    x.2.threads t = some th' →
      inputs (C.after p₀ th.trace) (C.after p₀ th'.trace) i i'
  | (a, a') => a' = a

instance [DecidableEq (Action Tid Boot In Env)] [∀ p q i i', Decidable (inputs p q i i')]
    (x : System Op Ans α Tid σ × System Op Ans α Tid σ)
    (a : Action Tid Boot In Env × Action Tid Boot In Env) :
    Decidable (InStep C p₀ inputs x a) :=
  match a with
  | (.exec t i, .exec t' i') =>
    decidable_of_iff (t' = t ∧ ∀ th ∈ x.1.threads t, ∀ th' ∈ x.2.threads t,
        inputs (C.after p₀ th.trace) (C.after p₀ th'.trace) i i')
      ⟨fun ⟨ht, hi⟩ => ⟨i', ht ▸ rfl, fun th th' h h' => hi th h th' h'⟩, by
        rintro ⟨_, ⟨⟩, hi⟩
        exact ⟨rfl, fun th h th' h' => hi th th' h h'⟩⟩
  | (.exec _ _, .start _ _) | (.exec _ _, .finish _) | (.exec _ _, .env _) | (.exec _ _, .crash) =>
    isFalse fun ⟨_, h, _⟩ => by cases h
  | (.start t b, a) => inferInstanceAs (Decidable (a = .start t b))
  | (.finish t, a) => inferInstanceAs (Decidable (a = .finish t))
  | (.env e, a) => inferInstanceAs (Decidable (a = .env e))
  | (.crash, a) => inferInstanceAs (Decidable (a = .crash))

structure Coupled (x : System Op Ans α Tid σ × System Op Ans α Tid σ) : Prop where
  shared : shares x.1.shared x.2.shared
  idle : ∀ t, x.1.threads t = none ↔ x.2.threads t = none
  threads : ∀ t th th', x.1.threads t = some th → x.2.threads t = some th' →
    C.Rel th.code (C.after p₀ th.trace) th'.code (C.after p₀ th'.trace) (R t)

end

variable {M : Machine Op Ans α Tid Boot In Env σ} {C : Coupling Op Ans φ} {p₀ : φ}
  {shares : σ → σ → Prop}
  {inputs : φ → φ → In → In → Prop} {R : Tid → α → φ → α → φ →
  Prop} {x y : System Op Ans α Tid σ × System Op Ans α Tid σ}
  {a : Action Tid Boot In Env × Action Tid Boot In Env}

theorem Coupled.update (h : Coupled C p₀ shares R x) {s s' : σ}
    {l l' : List (LogEntry Ans Tid)} {t : Tid} {th th' : Option (Thread Op Ans α)}
    (hs : shares s s') (hidle : th = none ↔ th' = none)
    (hrel : ∀ u u', th = some u → th' = some u' →
      C.Rel u.code (C.after p₀ u.trace) u'.code (C.after p₀ u'.trace) (R t)) :
    Coupled C p₀ shares R
      ({ shared := s, threads := Function.update x.1.threads t th, log := l },
        { shared := s', threads := Function.update x.2.threads t th', log := l' }) := by
  refine ⟨hs, fun u => ?_, fun u v v' hv hv' => ?_⟩
  · by_cases hu : u = t
    · subst hu
      simpa using hidle
    · simpa [hu] using h.idle u
  · by_cases hu : u = t
    · subst hu
      simp only [Function.update_self] at hv hv'
      exact hrel v v' hv hv'
    · simp only [Function.update_of_ne hu] at hv hv'
      exact h.threads u v v' hv hv'

theorem Machine.Couples.step (hM : M.Couples C p₀ shares inputs R) (h : Coupled C p₀ shares R x)
    (hok : InStep C p₀ inputs x a) (hst : M.step₂ x a = some y) : Coupled C p₀ shares R y := by
  obtain ⟨a, a'⟩ := a
  simp only [Machine.step₂, Option.bind_eq_some_iff, Option.map_eq_some_iff] at hst
  obtain ⟨s, hs, s', hs', rfl⟩ := hst
  cases M.step_cases hs with
  | start t b shared code hn hstart =>
    obtain rfl : a' = .start t b := hok
    cases M.step_cases hs' with
    | start _ _ shared' code' hn' hstart' =>
      obtain ⟨hsh, hrel⟩ := hM.start _ _ _ _ _ _ _ _ h.shared hstart hstart'
      refine h.update hsh (by simp) ?_
      rintro _ _ ⟨⟩ ⟨⟩
      exact hrel
  | exec t i o k tr shared v hth hx =>
    obtain ⟨i', rfl, hin⟩ := hok
    cases M.step_cases hs' with
    | exec _ _ o' k' tr' shared' v' hth' hx' =>
      obtain ⟨o₂, k₂, heq, ho, hk⟩ := h.threads t _ _ hth hth'
      cases heq
      obtain ⟨hsh, hans⟩ := hM.exec _ _ _ _ _ _ _ _ _ _ _ _ _ h.shared ho (hin _ _ hth hth') hx hx'
      refine h.update hsh (by simp) ?_
      rintro _ _ ⟨⟩ ⟨⟩
      simpa using hk v v' hans
  | finish t v tr hth =>
    obtain rfl : a' = .finish t := hok
    cases M.step_cases hs' with
    | finish _ v' tr' hth' =>
      obtain ⟨b, hb, hr⟩ := h.threads t _ _ hth hth'
      cases hb
      refine h.update (hM.finish _ _ _ _ _ _ _ h.shared hr) Iff.rfl ?_
      rintro _ _ ⟨⟩
  | env e shared he =>
    obtain rfl : a' = .env e := hok
    cases M.step_cases hs' with
    | env _ shared' he' => exact ⟨hM.env _ _ _ _ _ h.shared he he', h.idle, h.threads⟩
  | crash =>
    obtain rfl : a' = .crash := hok
    cases M.step_cases hs' with
    | crash => exact ⟨hM.crash _ _ h.shared, fun _ => Iff.rfl, fun _ _ _ ht => by cases ht⟩

theorem Machine.Couples.run (hM : M.Couples C p₀ shares inputs R) {shared shared' : σ}
    {as : List (Action Tid Boot In Env × Action Tid Boot In Env)} (hs : shares shared shared')
    (h : Runs.Run M.step₂ (InStep C p₀ inputs) ({ shared := shared }, { shared := shared' }) as x) :
    Coupled C p₀ shares R x :=
  h.invariant (fun _ _ _ hi hok hst => hM.step hi hok hst)
    ⟨hs, fun _ => Iff.rfl, fun _ _ _ ht => by cases ht⟩

end Threads
