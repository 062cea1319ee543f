import Mathlib.Data.List.Basic

/-!
Programs as trees of operations, and protocols over them: a phase that advances
with each answer and says which operation may come next.
-/

namespace Threads

inductive Program (Op : Type) (Ans : Op → Type) (α : Type)
  | ret (a : α)
  | op (o : Op) (k : Ans o → Program Op Ans α)

structure Protocol (Op : Type) (Ans : Op → Type) (φ : Type) where
  allowed : φ → Op → Prop
  -- what an answer satisfies whatever the state
  answers : (o : Op) → Ans o → Prop := fun _ _ => True
  next : φ → (o : Op) → Ans o → φ

variable {Op : Type} {Ans : Op → Type} {α β φ : Type}

namespace Program

def bind : Program Op Ans α → (α → Program Op Ans β) → Program Op Ans β
  | .ret a, f => f a
  | .op o k, f => .op o (fun a => (k a).bind f)

instance : Monad (Program Op Ans) where
  pure := .ret
  bind := bind

def perform (o : Op) : Program Op Ans (Ans o) := .op o .ret

@[simp]
theorem pure_eq (a : α) : (pure a : Program Op Ans α) = .ret a := rfl

@[simp]
theorem ret_bind (a : α) (f : α → Program Op Ans β) : (.ret a >>= f) = f a := rfl

@[simp]
theorem op_bind (o : Op) (k : Ans o → Program Op Ans α) (f : α → Program Op Ans β) :
    (.op o k >>= f) = .op o (fun a => k a >>= f) := rfl

@[simp]
theorem perform_bind (o : Op) (f : Ans o → Program Op Ans β) : (perform o >>= f) = .op o f := rfl

/-- None of the operations comes up, whatever the answers are. -/
def Avoids (bad : Op → Prop) : Program Op Ans α → Prop
  | .ret _ => True
  | .op o k => ¬ bad o ∧ ∀ a, Avoids bad (k a)

variable {bad : Op → Prop}

theorem Avoids.mono {bad' : Op → Prop} {x : Program Op Ans α} (hx : x.Avoids bad)
    (h : ∀ o, bad' o → bad o) :
    x.Avoids bad' := by
  induction x with
  | ret a => trivial
  | op o k ih => exact ⟨fun ho => hx.1 (h o ho), fun a => ih a (hx.2 a)⟩

theorem Avoids.bind {x : Program Op Ans α} {f : α → Program Op Ans β} (hx : x.Avoids bad)
    (hf : ∀ a, (f a).Avoids bad) :
    (x >>= f).Avoids bad := by
  induction x with
  | ret a => exact hf a
  | op o k ih => exact ⟨hx.1, fun a => ih a (hx.2 a)⟩

theorem Avoids.forM {f : β → Program Op Ans PUnit} (hf : ∀ x, (f x).Avoids bad) (xs : List β) :
    (xs.forM f).Avoids bad := by
  induction xs with
  | nil => trivial
  | cons x xs ih => exact (hf x).bind fun _ => ih

end Program

namespace Protocol

variable (P : Protocol Op Ans φ) {p : φ} {Q R : α → φ → Prop} {tr : List (Sigma Ans)}

def Obeys : Program Op Ans α → φ → (α → φ → Prop) → Prop
  | .ret a, p, Q => Q a p
  | .op o k, p, Q => P.allowed p o ∧ ∀ a, P.answers o a → Obeys (k a) (P.next p o a) Q

@[simp]
theorem obeys_ret (a : α) : P.Obeys (.ret a) p Q ↔ Q a p := Iff.rfl

@[simp]
theorem obeys_op (o : Op) (k : Ans o → Program Op Ans α) :
    P.Obeys (.op o k) p Q ↔ P.allowed p o ∧ ∀ a, P.answers o a → P.Obeys (k a)
      (P.next p o a) Q := Iff.rfl

@[simp]
theorem obeys_perform (o : Op) {Q : Ans o → φ → Prop} :
    P.Obeys (.perform o) p Q ↔ P.allowed p o ∧ ∀ a, P.answers o a → Q a (P.next p o a) := Iff.rfl

theorem obeys_bind (x : Program Op Ans α) (f : α → Program Op Ans β) {Q : β → φ → Prop} :
    P.Obeys (x >>= f) p Q ↔ P.Obeys x p (fun a p' => P.Obeys (f a) p' Q) := by
  induction x generalizing p with
  | ret a => exact Iff.rfl
  | op o k ih => simp only [Program.op_bind, obeys_op, ih]

theorem Obeys.mono {x : Program Op Ans α} (h : P.Obeys x p Q) (hQ : ∀ a p', Q a p' → R a p') :
    P.Obeys x p R := by
  induction x generalizing p with
  | ret a => exact hQ a p h
  | op o k ih => exact ⟨h.1, fun a ha => ih a (h.2 a ha)⟩

theorem Obeys.bind {x : Program Op Ans α} {f : α → Program Op Ans β} {S : β → φ → Prop}
    (h : P.Obeys x p Q) (hf : ∀ a p', Q a p' → P.Obeys (f a) p' S) : P.Obeys (x >>= f) p S :=
  (P.obeys_bind x f).mpr (h.mono P hf)

theorem obeys_of_absorbing (x : Program Op Ans α) (hp : ∀ o, P.allowed p o ∧ ∀ a, P.next p o a = p)
    (hQ : ∀ a, Q a p) : P.Obeys x p Q := by
  induction x with
  | ret a => exact hQ a
  | op o k ih =>
    refine ⟨(hp o).1, fun a _ => ?_⟩
    rw [(hp o).2 a]
    exact ih a

theorem obeys_of_confined {bad : Op → Prop} {I : φ → Prop} {x : Program Op Ans α} (hx : x.Avoids bad)
    (hI : ∀ p o, I p → ¬ bad o → P.allowed p o ∧ ∀ a, I (P.next p o a)) (hp : I p) :
    P.Obeys x p (fun _ p' => I p') := by
  induction x generalizing p with
  | ret a => exact hp
  | op o k ih => exact ⟨(hI p o hp hx.1).1, fun a _ => ih a (hx.2 a) ((hI p o hp hx.1).2 a)⟩

theorem obeys_of_avoids {bad : Op → Prop} {x : Program Op Ans α} (hx : x.Avoids bad)
    (hp : ∀ o, ¬ bad o → P.allowed p o ∧ ∀ a, P.next p o a = p) (hQ : ∀ a, Q a p) : P.Obeys x p Q := by
  have hstay : P.Obeys x p (fun _ p' => p' = p) := by
    refine P.obeys_of_confined hx ?_ rfl
    rintro _ o rfl ho
    exact hp o ho
  refine hstay.mono P ?_
  rintro a _ rfl
  exact hQ a

theorem Obeys.forM {I : List β → φ → Prop} {f : β → Program Op Ans PUnit}
    (hf : ∀ x xs p, I (x :: xs) p → P.Obeys (f x) p (fun _ p' => I xs p')) {xs : List β} (h : I xs p) :
    P.Obeys (xs.forM f) p (fun _ p' => I [] p') := by
  induction xs generalizing p with
  | nil => exact h
  | cons x xs ih => exact Obeys.bind P (hf x xs p h) (fun _ _ => ih)

def after (p : φ) (tr : List (Sigma Ans)) : φ := tr.foldl (fun p e => P.next p e.1 e.2) p

@[simp]
theorem after_nil : P.after p [] = p := rfl

@[simp]
theorem after_snoc (e : Sigma Ans) : P.after p (tr ++ [e]) = P.next (P.after p tr) e.1 e.2 := by
  simp [after]

theorem after_induction {I : φ → Prop} (hp : I p) (hn : ∀ p o a, I p → I (P.next p o a)) :
    I (P.after p tr) := by
  induction tr generalizing p with
  | nil => exact hp
  | cons e tr ih => exact ih (hn p e.1 e.2 hp)

end Protocol

end Threads
