import Kuberecord.RedactionPaths
import Kuberecord.Scrubs

namespace Kuberecord

inductive Place where
  | field (name : String)
  | item (index : Nat)
deriving DecidableEq

abbrev Position := List Place

def Json.child? : Json → Place → Option Json
  | .obj fields, .field name => fields.lookup name
  | .arr items, .item index => items[index]?
  | _, _ => none

def Json.at? : Json → Position → Option Json
  | v, [] => some v
  | v, place :: position => (v.child? place).bind (·.at? position)

def leads : Route → Position → Bool
  | [], [] => true
  | ⟨name, false⟩ :: route, .field name' :: position => name = name' && leads route position
  | ⟨name, true⟩ :: route, .field name' :: .item _ :: position => name = name' && leads route position
  | _, _ => false

def Json.outline : Json → Json
  | .obj fields => .obj (fields.map fun f => (f.1, .null))
  | .arr items => .arr (items.map fun _ => .null)
  | v => v

def Matched (routes elements : List Route) (position : Position) : Prop :=
  (∃ route ∈ routes, leads route position) ∨
    ∃ index rest, position = .item index :: rest ∧ ∃ route ∈ elements, leads route rest

def Covered (routes elements : List Route) (position : Position) : Prop :=
  ∃ above place rest, position = above ++ place :: rest ∧ Matched routes elements above

section

variable {routes elements : List Route} {v : Json} {position : Position}

theorem matched_nil : Matched routes elements [] ↔ [] ∈ routes := by
  constructor
  · rintro (⟨route, hr, hl⟩ | ⟨index, rest, hp, -⟩)
    · cases route with
      | nil => exact hr
      | cons segment route =>
        obtain ⟨name, wildcard⟩ := segment
        cases wildcard <;> cases hl
    · cases hp
  · exact fun h => .inl ⟨[], h, rfl⟩

theorem matched_field {name : String} : Matched routes elements (.field name :: position) ↔
    Matched (under name routes) (inside name routes) position := by
  constructor
  · rintro (⟨route, hr, hl⟩ | ⟨index, rest, hp, -⟩)
    · unfold leads at hl
      split at hl
      · rename_i hp
        cases hp
      · rename_i name' route _ rest hp
        cases hp
        rw [Bool.and_eq_true, decide_eq_true_eq] at hl
        obtain ⟨rfl, hl⟩ := hl
        exact .inl ⟨route, mem_under.mpr hr, hl⟩
      · rename_i name' route _ index rest hp
        cases hp
        rw [Bool.and_eq_true, decide_eq_true_eq] at hl
        obtain ⟨rfl, hl⟩ := hl
        exact .inr ⟨index, rest, rfl, route, mem_inside.mpr hr, hl⟩
      · cases hl
    · cases hp
  · rintro (⟨route, hr, hl⟩ | ⟨index, rest, rfl, route, hr, hl⟩)
    · exact .inl ⟨_, mem_under.mp hr, by simp [leads, hl]⟩
    · exact .inl ⟨_, mem_inside.mp hr, by simp [leads, hl]⟩

theorem matched_item {index : Nat} : Matched routes elements (.item index :: position) ↔
    Matched elements [] position := by
  constructor
  · rintro (⟨route, hr, hl⟩ | ⟨index, rest, hp, route, hr, hl⟩)
    · cases route with
      | nil => cases hl
      | cons segment route =>
        obtain ⟨name, wildcard⟩ := segment
        cases wildcard <;> cases hl
    · cases hp
      exact .inl ⟨route, hr, hl⟩
  · rintro (⟨route, hr, hl⟩ | ⟨index, rest, rfl, route, hr, hl⟩)
    · exact .inr ⟨index, position, rfl, route, hr, hl⟩
    · cases hr

theorem covered_nil : ¬ Covered routes elements [] := by
  rintro ⟨above, place, rest, hp, -⟩
  cases above <;> cases hp

theorem covered_cons {place : Place} : Covered routes elements (place :: position) ↔ [] ∈ routes ∨
    ∃ above place' rest, position = above ++ place' :: rest ∧ Matched routes elements
      (place :: above) := by
  constructor
  · rintro ⟨above, place', rest, hp, hm⟩
    cases above with
    | nil => exact .inl (matched_nil.mp hm)
    | cons first above =>
      cases hp
      exact .inr ⟨above, place', rest, rfl, hm⟩
  · rintro (h | ⟨above, place', rest, rfl, hm⟩)
    · exact ⟨[], place, position, rfl, matched_nil.mpr h⟩
    · exact ⟨place :: above, place', rest, rfl, hm⟩

theorem covered_field {name : String} : Covered routes elements (.field name :: position) ↔
    [] ∈ routes ∨ Covered (under name routes) (inside name routes) position := by
  rw [covered_cons]
  simp only [matched_field, Covered]

theorem covered_item {index : Nat} : Covered routes elements (.item index :: position) ↔
    [] ∈ routes ∨ Covered elements [] position := by
  rw [covered_cons]
  simp only [matched_item, Covered]

theorem lookup_scrubFields (name : String) (fields : Fields) : (scrubFields routes fields).lookup name =
    (fields.lookup name).map (scrub (under name routes) (inside name routes)) := by
  induction fields generalizing routes with
  | nil => rfl
  | cons f fields ih =>
    obtain ⟨name', v⟩ := f
    by_cases hn : name' = name
    · subst hn
      simp [scrubFields]
    · have hb : (name == name') = false := beq_false_of_ne (Ne.symm hn)
      rw [scrubFields, List.lookup_cons, List.lookup_cons, hb, ih, under_beside (Ne.symm hn),
        inside_beside (Ne.symm hn)]

theorem getElem?_scrubItems (index : Nat) (items : List Json) :
    (scrubItems routes items)[index]? = items[index]?.map (scrub routes []) := by
  induction items generalizing index with
  | nil => rfl
  | cons v items ih =>
    cases index with
    | zero => rfl
    | succ index => exact ih index

theorem child?_scrub_field (hm : [] ∉ routes) (name : String) :
    (scrub routes elements v).child? (.field name) =
    (v.child? (.field name)).map (scrub (under name routes) (inside name routes)) := by
  cases v with
  | obj fields =>
    rw [scrub_obj hm]
    exact lookup_scrubFields name fields
  | arr items =>
    rw [scrub_arr hm]
    rfl
  | _ =>
    rw [scrub_scalar rfl hm]
    rfl

theorem child?_scrub_item (hm : [] ∉ routes) (index : Nat) :
    (scrub routes elements v).child? (.item index) =
    (v.child? (.item index)).map (scrub elements []) := by
  cases v with
  | obj fields =>
    rw [scrub_obj hm]
    rfl
  | arr items =>
    rw [scrub_arr hm]
    exact getElem?_scrubItems index items
  | _ =>
    rw [scrub_scalar rfl hm]
    rfl

theorem outline_scrub (hm : [] ∉ routes) : (scrub routes elements v).outline = v.outline := by
  cases v with
  | obj fields =>
    rw [scrub_obj hm]
    simp only [Json.outline, Json.obj.injEq]
    clear hm
    induction fields generalizing routes with
    | nil => rfl
    | cons f fields ih =>
      rw [scrubFields, List.map_cons, List.map_cons, ih]
  | arr items =>
    rw [scrub_arr hm]
    simp only [Json.outline, Json.arr.injEq]
    induction items with
    | nil => rfl
    | cons v items ih => rw [scrubItems, List.map_cons, List.map_cons, ih]
  | _ => rw [scrub_scalar rfl hm]

structure Redacts (routes elements : List Route) (position : Position)
    (before after : Option Json) : Prop where
  covered : Covered routes elements position → after = none
  matched : ¬ Covered routes elements position → Matched routes elements position →
    after = before.map fun _ => .str redactionSentinel
  unmatched : ¬ Covered routes elements position → ¬ Matched routes elements position →
    after.map Json.outline = before.map Json.outline

theorem Redacts.none : Redacts routes elements position none none :=
  ⟨fun _ => rfl, fun _ _ => rfl, fun _ _ => rfl⟩

theorem Redacts.below {routes' elements' : List Route} {place : Place} {before after : Option Json}
    (hm : [] ∉ routes)
    (hc : Covered routes elements (place :: position) ↔ [] ∈ routes ∨ Covered routes' elements' position)
    (hp : Matched routes elements (place :: position) ↔ Matched routes' elements' position)
    (h : Redacts routes' elements' position before after) :
    Redacts routes elements (place :: position) before after := by
  simp only [hm, false_or] at hc
  exact ⟨fun hcov => h.covered (hc.mp hcov), fun hcov hmat => h.matched (hc.not.mp hcov) (hp.mp hmat),
    fun hcov hmat => h.unmatched (hc.not.mp hcov) (hp.not.mp hmat)⟩

theorem scrub_at (v : Json) (position : Position) (routes elements : List Route) :
    Redacts routes elements position (v.at? position) ((scrub routes elements v).at? position) := by
  induction position generalizing v routes elements with
  | nil =>
    refine ⟨fun h => absurd h covered_nil, fun _ h => ?_, fun _ h => ?_⟩
    · rw [scrub_of_mem (matched_nil.mp h)]
      rfl
    · rw [matched_nil] at h
      simp only [Json.at?, Option.map_some, outline_scrub h]
  | cons place position ih =>
    by_cases hm : [] ∈ routes
    · have hc : Covered routes elements (place :: position) := covered_cons.mpr (.inl hm)
      rw [scrub_of_mem hm]
      exact ⟨fun _ => by cases place <;> rfl, fun h => absurd hc h, fun h => absurd hc h⟩
    · simp only [Json.at?]
      cases place with
      | field name =>
        rw [child?_scrub_field hm]
        cases v.child? (.field name) with
        | none => exact .none
        | some child => exact .below hm covered_field matched_field (ih child _ _)
      | item index =>
        rw [child?_scrub_item hm]
        cases v.child? (.item index) with
        | none => exact .none
        | some child => exact .below hm covered_item matched_item (ih child _ _)

theorem Json.at?_append (v : Json) (above below : Position) :
    v.at? (above ++ below) = (v.at? above).bind (·.at? below) := by
  induction above generalizing v with
  | nil => rfl
  | cons place above ih =>
    rw [List.cons_append, Json.at?, Json.at?]
    cases v.child? place with
    | none => rfl
    | some child => exact ih child

theorem Covered.shallowest (h : Covered routes elements position) :
    ∃ above below, position = above ++ below ∧
    Matched routes elements above ∧ ¬ Covered routes elements above := by
  obtain ⟨n, hn⟩ : ∃ n, position.length = n := ⟨_, rfl⟩
  induction n using Nat.strong_induction_on generalizing position with
  | _ n ih =>
    obtain ⟨above, place, rest, rfl, hm⟩ := h
    by_cases hc : Covered routes elements above
    · obtain ⟨top, below, rfl, htop⟩ := ih above.length (by simp at hn; omega) hc rfl
      exact ⟨top, below ++ place :: rest, List.append_assoc _ _ _, htop⟩
    · exact ⟨above, place :: rest, rfl, hm, hc⟩

theorem scrub_hides {w : Json} (h : v.at? position = some w) (hm : Matched routes elements position) :
    ∃ above below, position = above ++ below ∧ (scrub routes elements v).at? above = some
      (.str redactionSentinel) := by
  have key : ∃ above below, position = above ++ below ∧ Matched routes elements above ∧
      ¬ Covered routes elements above := by
    by_cases hc : Covered routes elements position
    · exact hc.shallowest
    · exact ⟨position, [], (List.append_nil _).symm, hm, hc⟩
  obtain ⟨above, below, rfl, hmatched, hc⟩ := key
  rw [Json.at?_append] at h
  obtain ⟨x, hx, -⟩ := Option.bind_eq_some_iff.mp h
  refine ⟨above, below, rfl, ?_⟩
  rw [(scrub_at v above routes elements).matched hc hmatched, hx]
  rfl

theorem scrub_congr {routes' elements' : List Route} (hr : ∀ r, r ∈ routes ↔ r ∈ routes')
    (he : ∀ r, r ∈ elements ↔ r ∈ elements') : scrub routes elements v = scrub routes' elements' v := by
  induction v using Json.induction generalizing routes elements routes' elements' with
  | scalar v hv =>
    by_cases hm : [] ∈ routes
    · rw [scrub_of_mem hm, scrub_of_mem ((hr _).mp hm)]
    · rw [scrub_scalar hv hm, scrub_scalar hv ((hr _).not.mp hm)]
  | arr items ih =>
    by_cases hm : [] ∈ routes
    · rw [scrub_of_mem hm, scrub_of_mem ((hr _).mp hm)]
    · rw [scrub_arr hm, scrub_arr ((hr _).not.mp hm)]
      congr 1
      induction items with
      | nil => rfl
      | cons v items ihi =>
        rw [scrubItems, scrubItems, ih v (.head _) he fun r => Iff.rfl, ihi
          fun v hv => ih v (.tail _ hv)]
  | obj fields ih =>
    by_cases hm : [] ∈ routes
    · rw [scrub_of_mem hm, scrub_of_mem ((hr _).mp hm)]
    · rw [scrub_obj hm, scrub_obj ((hr _).not.mp hm)]
      congr 1
      clear hm he
      induction fields generalizing routes routes' with
      | nil => rfl
      | cons f fields ihf =>
        have hu : ∀ r, r ∈ under f.1 routes ↔ r ∈ under f.1 routes' :=
          fun r => by rw [mem_under, mem_under, hr]
        have hi : ∀ r, r ∈ inside f.1 routes ↔ r ∈ inside f.1 routes' :=
          fun r => by rw [mem_inside, mem_inside, hr]
        have hb : ∀ r, r ∈ beside f.1 routes ↔ r ∈ beside f.1 routes' :=
          fun r => by rw [mem_beside, mem_beside, hr]
        obtain ⟨name, v⟩ := f
        rw [scrubFields, scrubFields, ih _ (.head _) hu hi, ihf (fun f hf => ih f (.tail _ hf)) hb]

theorem scrub_scrub (routes routes' : List Route) (v : Json) :
    scrub routes' [] (scrub routes [] v) = scrub (routes ++ routes') [] v := by
  induction routes' using List.reverseRecOn with
  | nil => rw [scrub_nil, List.append_nil]
  | append_singleton routes' route ih =>
    rw [← (redacted_scrub route _ routes' []).1, ih, (redacted_scrub route v _ []).1, List.append_assoc]

end

theorem apply_apply (p p' : Option RedactionPolicy) (v : Json) :
    RedactionPolicy.apply p' (RedactionPolicy.apply p v) =
    scrub (RedactionPolicy.routes p ++ RedactionPolicy.routes p') [] v := by
  rw [apply_eq_scrub, apply_eq_scrub, scrub_scrub]

theorem apply_congr {p p' : Option RedactionPolicy}
    (h : ∀ path, path ∈ (p.getD builtinRedaction).paths ↔ path ∈ (p'.getD builtinRedaction).paths)
    (v : Json) :
    RedactionPolicy.apply p v = RedactionPolicy.apply p' v := by
  rw [apply_eq_scrub, apply_eq_scrub]
  refine scrub_congr (fun r => ?_) fun r => Iff.rfl
  simp only [RedactionPolicy.routes, List.mem_map, h]

theorem apply_idempotent (p : Option RedactionPolicy) (v : Json) :
    RedactionPolicy.apply p (RedactionPolicy.apply p v) = RedactionPolicy.apply p v := by
  rw [apply_apply, apply_eq_scrub]
  exact scrub_congr (fun r => by simp) fun r => Iff.rfl

section

variable {q : Quoting} {p p' : Option RedactionPolicy}

theorem apply_merge (h : RedactionPolicy.Built (parseRedactionPath q) p)
    (h' : RedactionPolicy.Built (parseRedactionPath q) p') (v : Json) :
    RedactionPolicy.apply (mergeRedaction [p, p']) v = RedactionPolicy.apply p
      (RedactionPolicy.apply p' v) ∧
      RedactionPolicy.apply (mergeRedaction [p, p']) v = RedactionPolicy.apply p'
        (RedactionPolicy.apply p v) := by
  have hbuilt : ∀ x ∈ [p, p'], RedactionPolicy.Built (parseRedactionPath q) x := by
    rintro x (_ | ⟨_, _ | ⟨_, hx⟩⟩)
    · exact h
    · exact h'
    · cases hx
  have hmem := mem_merge_built (fun s _ => parseRedactionPath_raw q s)
    (builtinRedaction_compiled q) hbuilt (by simp)
  have hroutes : ∀ r, r ∈ RedactionPolicy.routes (mergeRedaction [p, p']) ↔
      r ∈ RedactionPolicy.routes p ∨ r ∈ RedactionPolicy.routes p' := by
    intro r
    simp only [RedactionPolicy.routes, List.mem_map, hmem, List.mem_cons, List.not_mem_nil, or_false]
    grind
  rw [apply_apply, apply_apply, apply_eq_scrub]
  refine ⟨scrub_congr (fun r => ?_) fun r => Iff.rfl, scrub_congr (fun r => ?_) fun r => Iff.rfl⟩
  · rw [hroutes, List.mem_append, or_comm]
  · rw [hroutes, List.mem_append]

def lastAppliedPosition : Position :=
  [.field "metadata", .field "annotations", .field lastAppliedConfigAnnotation]

theorem lastApplied_matched (h : RedactionPolicy.Built (parseRedactionPath q) p) :
    Matched (RedactionPolicy.routes p) [] lastAppliedPosition := by
  obtain ⟨path, hp⟩ : ∃ path, path ∈ builtinRedaction.paths := ⟨_, .head _⟩
  have hs : leads path.segments lastAppliedPosition := List.mem_singleton.mp hp ▸ by decide
  refine .inl ⟨path.segments, List.mem_map_of_mem ?_, hs⟩
  cases p with
  | none => exact hp
  | some policy =>
    exact (h.spec (fun s _ => parseRedactionPath_raw q s)
      (builtinRedaction_compiled q) policy rfl).2 path hp

end

end Kuberecord
