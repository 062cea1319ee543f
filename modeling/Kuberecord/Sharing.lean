import Kuberecord.Library.Keyed
import Kuberecord.Positions
import Mathlib.Data.List.Forall2

namespace Kuberecord

/-- A value of type `any`: a scalar, or a reference to a map or a slice. -/
inductive Word where
  | scalar (v : Json)
  | ref (address : Nat)
deriving DecidableEq

inductive Block where
  | map (fields : List (String × Word))
  | slice (items : List Word)

abbrev Memory := List Block

namespace Memory

def alloc (m : Memory) (b : Block) : Memory × Nat := (m ++ [b], m.length)

def assignKey (m : Memory) (out : Nat) (name : String) (w : Word) : Memory :=
  m.modify out fun
    | .map fields => .map (Keyed.put name w fields)
    | b => b

def assignIndex (m : Memory) (out i : Nat) (w : Word) : Memory :=
  m.modify out fun
    | .slice items => .slice (items.set i w)
    | b => b

def redactLoop (redact : Memory → Word → Memory × Option Word) (items : List Word) :
    List Word → Nat → Memory × Option Nat → Memory × Option Nat
  | [], _, s => s
  | item :: rest, i, (m, out) =>
    match redact m item with
    | (m, none) => redactLoop redact items rest (i + 1) (m, out)
    | (m, some replacement) =>
      let (m, o) :=
        match out with
        | some o => (m, o)
        | none => m.alloc (.slice items)
      redactLoop redact items rest (i + 1) (m.assignIndex o i replacement, some o)

def redactElements (redact : Memory → Word → Memory × Option Word) (m : Memory) :
    Word → Memory × Option Word
  | .ref a =>
    match m[a]? with
    | some (.slice items) =>
      let (m, out) := redactLoop redact items items 0 (m, none)
      (m, out.map .ref)
    | _ => (m, none)
  | .scalar _ => (m, none)

def redactValue : List RedactionSegment → Memory → Word → Memory × Option Word
  | [], m, value =>
    if value = .scalar (.str redactionSentinel) then (m, none) else (m,
      some (.scalar (.str redactionSentinel)))
  | segment :: segments, m, .ref a =>
    match m[a]? with
    | some (.map object) =>
      match object.lookup segment.name with
      | none => (m, none)
      | some child =>
        let result :=
          if segment.wildcard then redactElements (redactValue segments) m child
          else redactValue segments m child
        match result with
        | (m, none) => (m, none)
        | (m, some replacement) =>
          let (m, out) := m.alloc (.map object)
          (m.assignKey out segment.name replacement, some (.ref out))
    | _ => (m, none)
  | _ :: _, m, .scalar _ => (m, none)

def isMap (m : Memory) : Word → Bool
  | .ref a =>
    match m[a]? with
    | some (.map _) => true
    | _ => false
  | .scalar _ => false

def applyPaths : List RedactionPath → Memory → Word → Option (Memory × Word)
  | [], m, current => some (m, current)
  | path :: paths, m, current =>
    match redactValue path.segments m current with
    | (m, none) => applyPaths paths m current
    | (m, some next) => if m.isMap next then applyPaths paths m next else none

def apply (p : Option RedactionPolicy) (m : Memory) (object : Word) : Option (Memory × Word) :=
  applyPaths (p.getD builtinRedaction).paths m object

end Memory

mutual

def Denotes (footprint : Nat → Prop) (m : Memory) : Word → Json → Prop
  | w, .obj fields => ∃ a cells, w = .ref a ∧ footprint a ∧ m[a]? = some (.map cells) ∧
      DenotesFields footprint m cells fields
  | w, .arr items => ∃ a cells, w = .ref a ∧ footprint a ∧ m[a]? = some (.slice cells) ∧
      DenotesItems footprint m cells items
  | w, v => w = .scalar v

def DenotesItems (footprint : Nat → Prop) (m : Memory) : List Word → List Json → Prop
  | cells, [] => cells = []
  | cells, v :: items => ∃ w rest, cells = w :: rest ∧ Denotes footprint m w v ∧
      DenotesItems footprint m rest items

def DenotesFields (footprint : Nat → Prop) (m : Memory) : List (String × Word) → Fields → Prop
  | cells, [] => cells = []
  | cells, (name, v) :: fields => ∃ w rest, cells = (name, w) :: rest ∧ Denotes footprint m w v ∧
      DenotesFields footprint m rest fields

end

section

variable {footprint footprint' : Nat → Prop} {m m' : Memory}
variable {v : Json} {w : Word} {fields : Fields}

theorem denotesItems_iff {cells : List Word} {items : List Json} :
    DenotesItems footprint m cells items ↔ List.Forall₂ (Denotes footprint m) cells items := by
  induction items generalizing cells with
  | nil => simp [DenotesItems]
  | cons v items ih =>
    simp only [DenotesItems, List.forall₂_cons_right_iff, ih]
    constructor
    · rintro ⟨w, rest, rfl, hw, hrest⟩
      exact ⟨w, rest, hw, hrest, rfl⟩
    · rintro ⟨w, rest, hw, hrest, rfl⟩
      exact ⟨w, rest, rfl, hw, hrest⟩

theorem Denotes.frame (h : ∀ a b, footprint a → m[a]? = some b → footprint' a ∧ m'[a]? = some b)
    (hd : Denotes footprint m w v) : Denotes footprint' m' w v := by
  induction v using Json.induction generalizing w with
  | scalar v hv => cases v <;> first | exact hd | cases hv
  | arr items ih =>
    obtain ⟨a, cells, rfl, ha, hm, hitems⟩ := hd
    obtain ⟨ha', hm'⟩ := h a _ ha hm
    refine ⟨a, cells, rfl, ha', hm', ?_⟩
    clear hm hm'
    induction items generalizing cells with
    | nil => exact hitems
    | cons v items ihi =>
      obtain ⟨w, rest, rfl, hw, hrest⟩ := hitems
      exact ⟨w, rest, rfl, ih v (.head _) hw, ihi (fun v hv => ih v (.tail _ hv)) rest hrest⟩
  | obj fields ih =>
    obtain ⟨a, cells, rfl, ha, hm, hfields⟩ := hd
    obtain ⟨ha', hm'⟩ := h a _ ha hm
    refine ⟨a, cells, rfl, ha', hm', ?_⟩
    clear hm hm'
    induction fields generalizing cells with
    | nil => exact hfields
    | cons f fields ihf =>
      obtain ⟨name, v⟩ := f
      obtain ⟨w, rest, rfl, hw, hrest⟩ := hfields
      exact ⟨w, rest, rfl, ih _ (.head _) hw, ihf (fun f hf => ih f (.tail _ hf)) rest hrest⟩

structure Refines (footprint : Nat →
    Prop) (m : Memory) (r : Memory × Option Word) (s : Option Json) : Prop where
  kept : m <+: r.1
  result : Option.Rel (Denotes (fun a => footprint a ∨ m.length ≤ a) r.1) r.2 s

theorem getElem?_of_isPrefix {a : Nat} {b : Block} (h : m <+: m') (ha : m[a]? = some b) :
    m'[a]? = some b := by
  obtain ⟨more, rfl⟩ := h
  rw [List.getElem?_append_left (List.getElem?_eq_some_iff.mp ha).1, ha]

theorem isPrefix_modify {out : Nat} {f : Block → Block} (h : m <+: m') (hout : m.length ≤ out) :
    m <+: m'.modify out f := by
  rw [List.prefix_iff_getElem?] at h ⊢
  intro a ha
  rw [List.getElem?_modify_ne _ _ (by omega), h a ha]

structure Progress (f : Json → Option Json) (footprint : Nat →
    Prop) (m₀ : Memory) (items rest : List Word)
    (before : List Json) (s : Memory × Option Nat) : Prop where
  kept : m₀ <+: s.1
  unchanged : s.2 = none → ∃ done, items = done ++ rest ∧
    List.Forall₂ (Denotes footprint m₀) done before ∧
    ∀ v ∈ before, f v = none
  copied : ∀ out, s.2 = some out → m₀.length ≤ out ∧ (∃ v ∈ before, (f v).isSome) ∧
    ∃ cells, s.1[out]? = some (.slice (cells ++ rest)) ∧
      List.Forall₂ (Denotes (fun a => (footprint a ∨ m₀.length ≤ a) ∧ a ≠ out) s.1) cells
        (before.map fun v => (f v).getD v)

theorem Memory.assignIndex_spec {m₀ : Memory} {out : Nat} {cells rest : List Word}
    {item replacement : Word} {vs : List Json} (hkept : m₀ <+: m) (hout : m₀.length ≤ out)
    (hcell : m[out]? = some (.slice (cells ++ item :: rest)))
    (hcells : List.Forall₂ (Denotes (fun a => footprint a ∧ a ≠ out) m) cells vs)
    (hr : Denotes (fun a => footprint a ∧ a ≠ out) m replacement v) :
    m₀ <+: m.assignIndex out vs.length replacement ∧
      (m.assignIndex out vs.length replacement)[out]? = some
        (.slice ((cells ++ [replacement]) ++ rest)) ∧
      List.Forall₂ (Denotes (fun a => footprint a ∧ a ≠ out) (m.assignIndex out vs.length replacement))
        (cells ++ [replacement]) (vs ++ [v]) := by
  have hframe : ∀ a b, (footprint a ∧ a ≠ out) → m[a]? = some b →
      (footprint a ∧ a ≠ out) ∧ (m.assignIndex out vs.length replacement)[a]? = some b := by
    intro a b ha hb
    refine ⟨ha, ?_⟩
    rw [Memory.assignIndex, List.getElem?_modify_ne _ _ (Ne.symm ha.2), hb]
  refine ⟨isPrefix_modify hkept hout, ?_, ?_⟩
  · rw [Memory.assignIndex, List.getElem?_modify_eq, hcell, ← hcells.length_eq]
    simp
  · exact List.rel_append (hcells.imp fun w v h => h.frame hframe) (.cons (hr.frame hframe) .nil)

section

variable {f : Json → Option Json} {m₀ : Memory} {items rest : List Word} {before : List Json}
  {out : Option Nat}
  {item replacement : Word} {v v' : Json}

theorem Progress.skip (h : Progress f footprint m₀ items (item :: rest) before (m, out))
    (hitem : Denotes footprint m₀ item v) (hkept : m <+: m') (hv : f v = none) :
    Progress f footprint m₀ items rest (before ++ [v]) (m', out) := by
  refine ⟨h.kept.trans hkept, fun ho => ?_, fun o ho => ?_⟩
  · obtain ⟨done, hi, hdone, hnone⟩ := h.unchanged ho
    refine ⟨done ++ [item], by simp [hi], List.rel_append hdone (.cons hitem .nil), fun x hx => ?_⟩
    rcases List.mem_append.mp hx with hx | hx
    · exact hnone x hx
    · rw [List.mem_singleton.mp hx, hv]
  · obtain ⟨hle, ⟨x, hx, hsome⟩, cells, hcell, hcells⟩ := h.copied o ho
    have hcells' := hcells.imp fun w v hw => hw.frame fun a b ha hb =>
      ⟨ha, getElem?_of_isPrefix hkept hb⟩
    have hitem' : Denotes (fun a => (footprint a ∨ m₀.length ≤ a) ∧ a ≠ o) m' item ((f v).getD v) := by
      rw [hv]
      refine hitem.frame fun a b ha hb => ⟨⟨.inl ha, ?_⟩, getElem?_of_isPrefix (h.kept.trans hkept) hb⟩
      have := (List.getElem?_eq_some_iff.mp hb).1
      omega
    refine ⟨hle, ⟨x, List.mem_append_left _ hx, hsome⟩, cells ++ [item], ?_, ?_⟩
    · rw [getElem?_of_isPrefix hkept hcell, List.append_assoc, List.singleton_append]
    · rw [List.map_append]
      exact List.rel_append hcells' (.cons hitem' .nil)

def Memory.copyOf (items : List Word) (m : Memory) (out : Option Nat) : Memory × Nat :=
  match out with
  | some o => (m, o)
  | none => m.alloc (.slice items)

theorem Progress.copyOf (h : Progress f footprint m₀ items (item :: rest) before (m, out))
    (hkept : m <+: m') :
    m' <+: (m'.copyOf items out).1 ∧ m₀.length ≤ (m'.copyOf items out).2 ∧
      (∀ a, m.length ≤ a → a < m'.length → a ≠ (m'.copyOf items out).2) ∧
      ∃ cells, (m'.copyOf items out).1[(m'.copyOf items out).2]? = some
        (.slice (cells ++ item :: rest)) ∧
        List.Forall₂ (Denotes (fun a => (footprint a ∨ m₀.length ≤ a) ∧ a ≠ (m'.copyOf items out).2)
          (m'.copyOf items out).1) cells (before.map fun v => (f v).getD v) := by
  have hlen := (h.kept.trans hkept).length_le
  cases out with
  | some o =>
    obtain ⟨hle, -, cells, hcell, hcells⟩ := h.copied o rfl
    refine ⟨List.prefix_rfl, hle, fun a ha _ he => ?_, cells, getElem?_of_isPrefix hkept hcell, ?_⟩
    · have := (List.getElem?_eq_some_iff.mp hcell).1
      dsimp only [Memory.copyOf] at he this
      omega
    · exact hcells.imp fun w v hw => hw.frame fun a b ha hb => ⟨ha, getElem?_of_isPrefix hkept hb⟩
  | none =>
    obtain ⟨done, hi, hdone, hnone⟩ := h.unchanged rfl
    have hmap : (before.map fun v => (f v).getD v) = before :=
      (List.map_congr_left fun v hv => by rw [hnone v hv]; rfl).trans (List.map_id _)
    refine ⟨List.prefix_append _ _, hlen, fun a _ ha he => ?_, done, ?_, ?_⟩
    · dsimp only [Memory.copyOf, Memory.alloc] at he
      omega
    · rw [hi]
      simp [Memory.copyOf, Memory.alloc]
    · rw [hmap]
      have hne (a : Nat) (ha : a < m₀.length) : a ≠ (m'.copyOf items none).2 :=
        Nat.ne_of_lt (ha.trans_le hlen)
      exact hdone.imp fun w v hw => hw.frame fun a b ha hb =>
        ⟨⟨.inl ha, hne a (List.getElem?_eq_some_iff.mp hb).1⟩,
        getElem?_of_isPrefix ((h.kept.trans hkept).trans (List.prefix_append _ _)) hb⟩

theorem Progress.change (h : Progress f footprint m₀ items (item :: rest) before (m, out))
    (hkept : m <+: m') (hv : f v = some v')
    (hr : Denotes (fun a => (footprint a ∧ a < m₀.length) ∨ m.length ≤ a) m' replacement v') :
    Progress f footprint m₀ items rest (before ++ [v])
      ((m'.copyOf items out).1.assignIndex (m'.copyOf items out).2 before.length replacement,
        some (m'.copyOf items out).2) := by
  obtain ⟨hcopy, hle, hnew, cells, hcell, hcells⟩ := h.copyOf hkept
  generalize m'.copyOf items out = copy at hcopy hle hnew hcell hcells ⊢
  have hr' : Denotes (fun a => (footprint a ∨ m₀.length ≤ a) ∧ a ≠ copy.2) copy.1 replacement v' := by
    have hlen := h.kept.length_le
    refine hr.frame fun a b ha hb => ⟨?_, getElem?_of_isPrefix hcopy hb⟩
    have hlt := (List.getElem?_eq_some_iff.mp hb).1
    rcases ha with ⟨ha, hlow⟩ | ha
    · exact ⟨.inl ha, by omega⟩
    · exact ⟨.inr (hlen.trans ha), hnew a ha hlt⟩
  obtain ⟨hkept', hcell', hcells'⟩ :=
    Memory.assignIndex_spec ((h.kept.trans hkept).trans hcopy) hle hcell hcells hr'
  rw [List.length_map] at hkept' hcell' hcells'
  refine ⟨hkept', fun ho => by simp at ho, ?_⟩
  rintro _ ⟨⟩
  refine ⟨hle, ⟨v, by simp, by simp [hv]⟩, _, hcell', ?_⟩
  rw [List.map_append, List.map_singleton, hv]
  exact hcells'

end

theorem Memory.redactLoop_spec {redact : Memory → Word → Memory × Option Word} {f : Json → Option Json}
    (hredact : ∀ (footprint : Nat → Prop) m w v, Denotes footprint m w v →
      Refines footprint m (redact m w) (f v))
    {m₀ : Memory} {items rest : List Word} {before after : List Json} {s : Memory × Option Nat}
    (hrest : List.Forall₂ (Denotes footprint m₀) rest after)
    (h : Progress f footprint m₀ items rest before s) :
    Progress f footprint m₀ items [] (before ++ after)
      (redactLoop redact items rest before.length s) := by
  induction hrest generalizing before s with
  | nil => simpa [redactLoop] using h
  | @cons item v rest after hitem hrest ih =>
    obtain ⟨m, out⟩ := s
    -- The loop has not written below `m₀.length`, so the element is still what it was.
    have hhere : Denotes (fun a => footprint a ∧ a < m₀.length) m item v :=
      hitem.frame fun a b ha hb => ⟨⟨ha, (List.getElem?_eq_some_iff.mp hb).1⟩,
        getElem?_of_isPrefix h.kept hb⟩
    obtain ⟨hkept, hresult⟩ := hredact _ m item v hhere
    have hnext : before.length + 1 = (before ++ [v]).length := by simp
    rw [redactLoop, List.append_cons, hnext]
    generalize redact m item = r at hkept hresult ⊢
    obtain ⟨m', replacement⟩ := r
    cases hf : f v with
    | none =>
      rw [hf] at hresult
      cases hresult
      exact ih (h.skip hitem hkept hf)
    | some v' =>
      rw [hf] at hresult
      cases hresult with
      | some hr => exact ih (h.change hkept hf hr)

theorem Memory.redactElements_spec {redact : Memory → Word → Memory × Option Word}
    {f : Json → Option Json}
    (hredact : ∀ (footprint : Nat → Prop) m w v, Denotes footprint m w v →
      Refines footprint m (redact m w) (f v))
    (h : Denotes footprint m w v) :
    Refines footprint m (redactElements redact m w) (Kuberecord.redactElements f v) := by
  cases v with
  | arr vs =>
    obtain ⟨a, items, rfl, ha, hm, hitems⟩ := h
    have hstart : Progress f footprint m items items [] (m, none) :=
      ⟨List.prefix_rfl, fun _ => ⟨[], rfl, .nil, by simp⟩, by simp⟩
    have hend := redactLoop_spec hredact (denotesItems_iff.mp hitems) hstart
    simp only [redactElements, hm, Kuberecord.redactElements]
    rw [List.nil_append, List.length_nil] at hend
    generalize redactLoop redact items items 0 (m, none) = s at hend ⊢
    obtain ⟨m', out⟩ := s
    refine ⟨hend.kept, ?_⟩
    cases out with
    | none =>
      obtain ⟨-, -, -, hnone⟩ := hend.unchanged rfl
      rw [if_neg]
      · exact .none
      · rw [List.any_eq_true]
        rintro ⟨x, hx, hsome⟩
        rw [hnone x hx] at hsome
        cases hsome
    | some out =>
      obtain ⟨hle, ⟨x, hx, hsome⟩, cells, hcell, hcells⟩ := hend.copied out rfl
      rw [if_pos (List.any_eq_true.mpr ⟨x, hx, hsome⟩)]
      rw [List.append_nil] at hcell
      refine .some ⟨out, cells, rfl, .inr hle, hcell, denotesItems_iff.mpr ?_⟩
      exact hcells.imp fun w v hw => hw.frame fun a b ha hb => ⟨ha.1, hb⟩
  | obj fields =>
    obtain ⟨a, cells, rfl, -, hm, -⟩ := h
    simp only [redactElements, hm]
    exact ⟨List.prefix_rfl, .none⟩
  | _ =>
    cases h
    exact ⟨List.prefix_rfl, .none⟩

theorem DenotesFields.lookup {cells : List (String × Word)}
    (h : DenotesFields footprint m cells fields) (name : String) :
    Option.Rel (Denotes footprint m) (cells.lookup name) (fields.lookup name) := by
  induction fields generalizing cells with
  | nil =>
    cases h
    exact .none
  | cons f fields ih =>
    obtain ⟨name', v⟩ := f
    obtain ⟨w, rest, rfl, hw, hrest⟩ := h
    by_cases hn : name = name'
    · subst hn
      rw [List.lookup_cons_self, List.lookup_cons_self]
      exact .some hw
    · rw [List.lookup_cons, List.lookup_cons, beq_false_of_ne hn]
      exact ih hrest

theorem DenotesFields.put {cells : List (String × Word)} {name : String} {v' : Json}
    (h : DenotesFields footprint m cells fields) (hf : fields.lookup name = some v)
    (hw : Denotes footprint m w v') :
    DenotesFields footprint m (Keyed.put name w cells) (setField name v' fields) := by
  induction fields generalizing cells with
  | nil => cases hf
  | cons f fields ih =>
    obtain ⟨name', x⟩ := f
    obtain ⟨x', rest, rfl, hx, hrest⟩ := h
    by_cases hn : name' = name
    · simp only [Keyed.put, setField, hn, if_true]
      exact ⟨w, rest, rfl, hw, hrest⟩
    · rw [List.lookup_cons, beq_false_of_ne (Ne.symm hn)] at hf
      simp only [Keyed.put, setField, hn, if_false]
      exact ⟨x', _, rfl, hx, ih hrest hf⟩

theorem DenotesFields.frame {cells : List (String × Word)}
    (h : ∀ a b, footprint a → m[a]? = some b → footprint' a ∧ m'[a]? = some b)
    (hd : DenotesFields footprint m cells fields) : DenotesFields footprint' m' cells fields := by
  induction fields generalizing cells with
  | nil => exact hd
  | cons f fields ih =>
    obtain ⟨name, v⟩ := f
    obtain ⟨w, rest, rfl, hw, hrest⟩ := hd
    exact ⟨w, rest, rfl, hw.frame h, ih hrest⟩

theorem denotes_scalar (h : Denotes footprint m w v) (text : String) :
    w = .scalar (.str text) ↔ v = .str text := by
  cases v with
  | obj | arr =>
    obtain ⟨a, cells, rfl, -⟩ := h
    simp
  | _ =>
    cases h
    simp

theorem Refines.copyMap {m₀ : Memory} {cells : List (String × Word)} {name : String}
    {replacement : Word} {v' : Json} (hfields : DenotesFields footprint m₀ cells fields)
    (hf : fields.lookup name = some v) (hkept : m₀ <+: m)
    (hr : Denotes (fun a => footprint a ∨ m₀.length ≤ a) m replacement v') :
    Refines footprint m₀
      ((m.alloc (.map cells)).1.assignKey (m.alloc (.map cells)).2 name replacement,
        some (.ref (m.alloc (.map cells)).2)) (some (.obj (setField name v' fields))) := by
  have hgrown : m <+: (m.alloc (.map cells)).1.assignKey (m.alloc (.map cells)).2 name replacement :=
    isPrefix_modify (List.prefix_append _ _) le_rfl
  refine ⟨hkept.trans hgrown, .some ⟨m.length, Keyed.put name replacement cells, rfl,
    .inr hkept.length_le, ?_, ?_⟩⟩
  · rw [Memory.assignKey, Memory.alloc, List.getElem?_modify_eq]
    simp
  · refine DenotesFields.put (hfields.frame fun a b ha hb => ⟨.inl ha, ?_⟩) hf
      (hr.frame fun a b ha hb => ⟨ha, getElem?_of_isPrefix hgrown hb⟩)
    exact getElem?_of_isPrefix (hkept.trans hgrown) hb

theorem Memory.redactValue_spec (segments : List RedactionSegment) (footprint : Nat → Prop)
    (m : Memory) (w : Word) (v : Json) (h : Denotes footprint m w v) :
    Refines footprint m (redactValue segments m w) (Kuberecord.redactValue segments v) := by
  induction segments generalizing footprint m w v with
  | nil =>
    have hs := denotes_scalar h redactionSentinel
    by_cases hv : v = .str redactionSentinel
    · simp only [redactValue, hs.mpr hv, if_true, hv, Kuberecord.redactValue]
      exact ⟨List.prefix_rfl, .none⟩
    · have hsome : Kuberecord.redactValue [] v = some (.str redactionSentinel) := by
        cases v with
        | str text => simp [Kuberecord.redactValue, show text ≠ redactionSentinel from fun ht =>
            hv (ht ▸ rfl)]
        | _ => rfl
      simp only [redactValue, hs.not.mpr hv, if_false, hsome]
      exact ⟨List.prefix_rfl, .some rfl⟩
  | cons segment segments ih =>
    cases v with
    | obj fields =>
      obtain ⟨a, cells, rfl, ha, hm, hfields⟩ := h
      have hl := hfields.lookup segment.name
      simp only [redactValue, hm, Kuberecord.redactValue]
      cases hf : fields.lookup segment.name with
      | none =>
        rw [hf] at hl
        generalize cells.lookup segment.name = child at hl ⊢
        cases hl
        exact ⟨List.prefix_rfl, .none⟩
      | some v =>
        rw [hf] at hl
        generalize hchild : cells.lookup segment.name = child at hl ⊢
        cases hl with
        | @some child _ hv =>
          have hrec : Refines footprint m
              (if segment.wildcard then redactElements
              (redactValue segments) m child else redactValue segments m child)
              (if segment.wildcard then Kuberecord.redactElements (Kuberecord.redactValue segments) v
                else Kuberecord.redactValue segments v) := by
            split_ifs
            · exact redactElements_spec ih hv
            · exact ih footprint m _ v hv
          simp only
          generalize (if segment.wildcard = true then redactElements (redactValue segments) m child
            else redactValue segments m child) = r at hrec ⊢
          generalize (if segment.wildcard = true then Kuberecord.redactElements
            (Kuberecord.redactValue segments) v
            else Kuberecord.redactValue segments v) = s at hrec ⊢
          obtain ⟨m', replacement⟩ := r
          obtain ⟨hkept, hresult⟩ := hrec
          cases hresult with
          | none => exact ⟨hkept, .none⟩
          | some hr => exact .copyMap hfields hf hkept hr
    | arr items =>
      obtain ⟨a, cells, rfl, -, hm, -⟩ := h
      simp only [redactValue, hm]
      exact ⟨List.prefix_rfl, .none⟩
    | _ =>
      cases h
      exact ⟨List.prefix_rfl, .none⟩

theorem redactValue_obj {segments : List RedactionSegment} (hne : segments ≠ []) {v' : Json}
    (h : redactValue segments v = some v') : ∃ fields, v' = .obj fields := by
  cases segments with
  | nil => exact absurd rfl hne
  | cons segment segments =>
    cases v with
    | obj object =>
      simp only [redactValue] at h
      split at h
      · cases h
      · obtain ⟨r, -, rfl⟩ := Option.map_eq_some_iff.mp h
        exact ⟨_, rfl⟩
    | _ => cases h

theorem Memory.applyPaths_spec (paths : List RedactionPath)
    (h : Denotes (fun _ => True) m w v) : ∃ m' w', applyPaths paths m w = some (m', w') ∧ m <+: m' ∧
      Denotes (fun _ => True) m' w'
        (paths.foldl (fun current path =>
            (Kuberecord.redactValue path.segments current).getD current) v) := by
  induction paths generalizing m w v with
  | nil => exact ⟨m, w, rfl, List.prefix_rfl, h⟩
  | cons path paths ih =>
    obtain ⟨hkept, hresult⟩ := redactValue_spec path.segments _ m w v h
    rw [applyPaths, List.foldl_cons]
    generalize redactValue path.segments m w = r at hkept hresult ⊢
    obtain ⟨m', replacement⟩ := r
    cases hv : Kuberecord.redactValue path.segments v with
    | none =>
      rw [hv] at hresult
      cases hresult
      have hd : Denotes (fun _ => True) m' w v :=
        h.frame fun a b ha hb => ⟨ha, getElem?_of_isPrefix hkept hb⟩
      obtain ⟨m'', w', happly, hkept', hd'⟩ := ih hd
      exact ⟨m'', w', happly, hkept.trans hkept', hd'⟩
    | some v' =>
      rw [hv] at hresult
      cases hresult with
      | some hnext =>
        obtain ⟨fields, rfl⟩ := redactValue_obj path.nonempty hv
        have hd : Denotes (fun _ => True) m' _ (.obj fields) := hnext.frame fun a b _ hb => ⟨trivial, hb⟩
        obtain ⟨a, cells, rfl, -, hm, -⟩ := hnext
        have hmap : m'.isMap (.ref a) := by simp [isMap, hm]
        obtain ⟨m'', w', happly, hkept', hd'⟩ := ih hd
        refine ⟨m'', w', ?_, hkept.trans hkept', hd'⟩
        simp only [hmap, if_true]
        exact happly

end

theorem apply_denotes_positions (q : Quoting) {p p' : Option RedactionPolicy}
    (h : RedactionPolicy.Built (parseRedactionPath q) p)
    (h' : RedactionPolicy.Built (parseRedactionPath q) p') (object : Fields) :
    (∀ position, Redacts (RedactionPolicy.routes p) [] position ((Json.obj object).at? position)
        ((RedactionPolicy.apply p (.obj object)).at? position)) ∧
      (∀ paths, (∀ path, path ∈ paths ↔ path ∈ (p.getD builtinRedaction).paths) →
        RedactionPolicy.apply (some ⟨paths⟩) (.obj object) = RedactionPolicy.apply p (.obj object)) ∧
      RedactionPolicy.apply p (RedactionPolicy.apply p (.obj object)) =
        RedactionPolicy.apply p (.obj object) ∧
      RedactionPolicy.apply (mergeRedaction [p, p']) (.obj object) =
        RedactionPolicy.apply p (RedactionPolicy.apply p' (.obj object)) ∧
      RedactionPolicy.apply (mergeRedaction [p, p']) (.obj object) =
        RedactionPolicy.apply p' (RedactionPolicy.apply p (.obj object)) ∧
      (∀ v, (Json.obj object).at? lastAppliedPosition = some v →
        ∃ above below, lastAppliedPosition = above ++ below ∧
          (RedactionPolicy.apply p (.obj object)).at? above = some (.str redactionSentinel)) ∧
      ∀ (m : Memory) (w : Word), Denotes (fun _ => True) m w (.obj object) →
        ∃ m' w', m.apply p w = some (m', w') ∧ m <+: m' ∧ Denotes (fun _ => True) m' w (.obj object) ∧
          Denotes (fun _ => True) m' w' (RedactionPolicy.apply p (.obj object)) := by
  refine ⟨fun position => ?_, fun paths hpaths => apply_congr (p := some ⟨paths⟩) hpaths _,
    apply_idempotent p _, (apply_merge h h' _).1,
    (apply_merge h h' _).2, fun v hv => ?_, fun m w hw => ?_⟩
  · rw [apply_eq_scrub]
    exact scrub_at _ _ _ _
  · rw [apply_eq_scrub]
    exact scrub_hides hv (lastApplied_matched h)
  · obtain ⟨m', w', happly, hkept, hd⟩ := Memory.applyPaths_spec (p.getD builtinRedaction).paths hw
    exact ⟨m', w', happly, hkept, hw.frame fun a b ha hb => ⟨ha, getElem?_of_isPrefix hkept hb⟩, hd⟩

def passwordPolicy : RedactionPolicy where
  paths := { raw := "data.password", segments := [{ name := "data" },
    { name := "password" }], nonempty := by simp } ::
    builtinRedaction.paths

def dataPolicy : RedactionPolicy where
  paths := { raw := "data", segments := [{ name := "data" }], nonempty := by simp } ::
    builtinRedaction.paths

theorem nested_policies_compose :
    RedactionPolicy.apply (mergeRedaction [some passwordPolicy, some dataPolicy])
        (.obj [("data", .obj [("password", .str "s3cret")]), ("kind", .str "Secret")]) =
      .obj [("data", .str redactionSentinel), ("kind", .str "Secret")] := by
  have hp : compileRedaction (parseRedactionPath .verbatim) ["data.password"] = .ok passwordPolicy := rfl
  have hd : compileRedaction (parseRedactionPath .verbatim) ["data"] = .ok dataPolicy := rfl
  exact (apply_denotes_positions .verbatim (.compile hp) (.compile hd) _).2.2.2.1

end Kuberecord
