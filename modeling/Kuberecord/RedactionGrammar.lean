import Kuberecord.RedactionPaths

namespace Kuberecord

open scoped Computability

def itemSegment (item : List Char) : RedactionSegment where
  name := String.ofList (item.takeWhile (· ≠ '['))
  wildcard := decide ("[*]".toList <:+ item)

theorem not_mem_of_segmentPattern {name : List Char} (h : redactionSegmentPattern name) {c : Char}
    (hc : nameEnd c) :
    c ∉ name := by
  intro hm
  have hno := not_nameEnd h c hm
  rw [hc] at hno
  cases hno

theorem takeWhile_segmentPattern {name t : List Char} (h : redactionSegmentPattern name)
    (ht : t.takeWhile (· ≠ '[') = []) : (name ++ t).takeWhile (· ≠ '[') = name := by
  have hopen : '[' ∉ name := not_mem_of_segmentPattern h (by decide)
  have hname : ∀ c ∈ name, decide (c ≠ '[') = true := by
    intro c hc
    exact decide_eq_true fun he => hopen (he ▸ hc)
  rw [List.takeWhile_append_of_pos hname, ht, List.append_nil]

theorem itemSegment_plain {name : List Char} (h : redactionSegmentPattern name) :
    itemSegment name = { name := String.ofList name } := by
  have hopen : '[' ∉ name := not_mem_of_segmentPattern h (by decide)
  have hsuffix : ¬ "[*]".toList <:+ name := fun hs => hopen (hs.subset (by decide))
  have htake := takeWhile_segmentPattern (t := []) h rfl
  rw [List.append_nil] at htake
  rw [itemSegment, htake, decide_eq_false hsuffix]

theorem itemSegment_wildcard {name : List Char} (h : redactionSegmentPattern name) :
    itemSegment (name ++ "[*]".toList) = { name := String.ofList name, wildcard := true } := by
  rw [itemSegment, takeWhile_segmentPattern h rfl, decide_eq_true (List.suffix_append ..)]

theorem fieldItem_no_dot {w : List Char} (h : w ∈ fieldItem) : '.' ∉ w := by
  obtain ⟨name, hname, sub, hsub, rfl⟩ := Language.mem_mul.mp h
  have hdot : '.' ∉ name := not_mem_of_segmentPattern (mem_fieldName.mp hname) (by decide)
  rcases (Language.mem_add _ _ _).mp hsub with rfl | rfl
  · simpa using hdot
  · exact fun hm => (List.mem_append.mp hm).elim hdot (by decide)

theorem splitOn_item {w after : List Char} (h : w ∈ fieldItem) :
    (w ++ '.' :: after).splitOn '.' = w :: after.splitOn '.' := by
  refine List.splitOnP_append_cons_of_forall_mem (fun c hc => ?_) _ (by decide) _
  exact beq_false_of_ne fun he => fieldItem_no_dot h (he ▸ hc)

theorem fieldPath_of_item {w : List Char} (h : w ∈ fieldItem) : w ∈ redactionFieldPathPattern :=
  Language.mem_mul.mpr ⟨w, h, [], Language.nil_mem_kstar _, List.append_nil w⟩

theorem fieldPath_cons {w path : List Char} (h : w ∈ fieldItem) (hp : path ∈ redactionFieldPathPattern) :
    w ++ '.' :: path ∈ redactionFieldPathPattern := by
  obtain ⟨first, hfirst, more, hmore, rfl⟩ := Language.mem_mul.mp hp
  obtain ⟨items, rfl, hitems⟩ := Language.mem_kstar.mp hmore
  refine Language.mem_mul.mpr ⟨w, h, _,
    Language.mem_kstar.mpr ⟨('.' :: first) :: items, rfl, ?_⟩, by simp⟩
  refine List.forall_mem_cons.mpr ⟨?_, hitems⟩
  exact Language.mem_mul.mpr ⟨['.'], rfl, first, hfirst, rfl⟩

section

variable {q : Quoting} {raw : String} {rest tail : List Char} {name : String}
  {segment : RedactionSegment}
  {keys : List RedactionSegment} {fuel : Nat}

theorem parseSegmentName_ok {remainder : List Char}
    (h : parseSegmentName q raw rest = .ok (name, remainder)) :
    redactionSegmentPattern name.toList ∧ rest = name.toList ++ remainder := by
  simp only [parseSegmentName] at h
  split_ifs at h with hp
  simp only [Except.ok.injEq, Prod.mk.injEq] at h
  obtain ⟨rfl, rfl⟩ := h
  rw [String.toList_ofList]
  exact ⟨hp, List.takeWhile_append_dropWhile.symm⟩

theorem parseSubscript_ok (hq : '"' ∉ rest)
    (h : parseSubscript q raw name rest = .ok (segment, keys, tail)) :
    keys = [] ∧ (rest = tail ∧ segment = { name := name } ∨
      rest = "[*]".toList ++ tail ∧ segment = { name := name, wildcard := true }) := by
  unfold parseSubscript at h
  split at h
  · rename_i rest
    dsimp only at h
    split_ifs at h with hclosed hstar hquote
    · simp only [Except.ok.injEq, Prod.mk.injEq] at h
      obtain ⟨rfl, rfl, rfl⟩ := h
      refine ⟨rfl, .inr ⟨?_, rfl⟩⟩
      have happ := List.takeWhile_append_dropWhile (p := (· ≠ ']')) (l := rest)
      have hhead := List.head?_dropWhile_not (fun c : Char => decide (c ≠ ']')) rest
      rw [hstar] at happ
      cases hd : rest.dropWhile (fun c => decide (c ≠ ']')) with
      | nil =>
        rw [hd] at happ
        rw [← happ] at hclosed
        exact absurd hclosed (by decide)
      | cons c after =>
        rw [hd] at happ hhead
        have hc : c = ']' := by simpa using hhead
        rw [← happ, hc]
        rfl
    · -- A quoted key would bring a quotation mark with it.
      obtain ⟨c, hc⟩ : ∃ c, c ∈ rest.takeWhile (· ≠ ']') ∧ c = '"' :=
        ⟨'"', List.mem_of_mem_head? hquote, rfl⟩
      refine absurd ?_ hq
      rw [← hc.2]
      exact .tail _ ((List.takeWhile_prefix _).subset hc.1)
  · simp only [Except.ok.injEq, Prod.mk.injEq] at h
    obtain ⟨rfl, rfl, rfl⟩ := h
    exact ⟨rfl, .inl ⟨rfl, rfl⟩⟩

theorem parse_item_ok {remainder : List Char} (hq : '"' ∉ rest)
    (hname : parseSegmentName q raw rest = .ok (name, remainder))
    (hsub : parseSubscript q raw name remainder = .ok (segment, keys, tail)) :
    ∃ w ∈ fieldItem, rest = w ++ tail ∧ keys = [] ∧ segment = itemSegment w := by
  obtain ⟨hpattern, rfl⟩ := parseSegmentName_ok hname
  have hfield := mem_fieldName.mpr hpattern
  obtain ⟨rfl, ⟨rfl, rfl⟩ | ⟨rfl, rfl⟩⟩ :=
    parseSubscript_ok (fun h => hq (List.mem_append_right _ h)) hsub
  · refine ⟨name.toList, ?_, rfl, rfl, ?_⟩
    · exact Language.mem_mul.mpr ⟨_, hfield, [], (Language.mem_add _ _ _).mpr (.inl rfl),
        List.append_nil _⟩
    · rw [itemSegment_plain hpattern, String.ofList_toList]
  · refine ⟨name.toList ++ "[*]".toList, ?_, (List.append_assoc ..).symm, rfl, ?_⟩
    · exact Language.mem_mul.mpr ⟨_, hfield, _, (Language.mem_add _ _ _).mpr (.inr rfl), rfl⟩
    · rw [itemSegment_wildcard hpattern, String.ofList_toList]

theorem parseSegments_sound {r : RedactionSegment × List RedactionSegment} (hq : '"' ∉ rest)
    (h : parseSegments q raw fuel rest = .ok r) :
    rest ∈ redactionFieldPathPattern ∧ r.1 :: r.2 = (rest.splitOn '.').map itemSegment := by
  induction fuel generalizing rest r with
  | zero =>
    unfold parseSegments at h
    cases hname : parseSegmentName q raw rest <;> rw [hname] at h <;> cases h
  | succ fuel ih =>
    unfold parseSegments at h
    cases hname : parseSegmentName q raw rest with
    | error err =>
      rw [hname] at h
      cases h
    | ok n =>
      obtain ⟨name, remainder⟩ := n
      simp only [hname, bind, Except.bind] at h
      cases hsub : parseSubscript q raw name remainder with
      | error err =>
        rw [hsub] at h
        cases h
      | ok s =>
        obtain ⟨segment, keys, tail⟩ := s
        obtain ⟨w, hw, rfl, rfl, rfl⟩ := parse_item_ok hq hname hsub
        simp only [hsub] at h
        split at h
        · cases h
          rw [List.append_nil, List.splitOn_eq_singleton (fieldItem_no_dot hw)]
          exact ⟨fieldPath_of_item hw, rfl⟩
        · rename_i after
          split_ifs at h
          cases hnext : parseSegments q raw fuel after with
          | error err =>
            rw [hnext] at h
            cases h
          | ok next =>
            rw [hnext] at h
            cases h
            obtain ⟨hpath, hsegments⟩ := ih (fun hm => hq (List.mem_append_right _ (.tail _ hm))) hnext
            refine ⟨fieldPath_cons hw hpath, ?_⟩
            rw [splitOn_item hw, List.map_cons, ← hsegments]
            rfl
        · cases h

theorem parseSegmentName_error {e : String} (h : parseSegmentName q raw rest = .error e) : e ≠ "" := by
  simp only [parseSegmentName] at h
  split_ifs at h
  cases h
  simp

theorem parseSubscript_error {e : String} (h : parseSubscript q raw name rest = .error e) : e ≠ "" := by
  unfold parseSubscript at h
  split at h
  · dsimp only at h
    split_ifs at h
    · split at h
      · cases h
        simp
      · split_ifs at h
        cases h
        simp
    · cases h
      simp
    · cases h
      simp
  · cases h

theorem parseSegments_ends (h : rest.length ≤ fuel) : parseSegments q raw fuel rest ≠ .error "" := by
  intro he
  induction fuel generalizing rest with
  | zero =>
    cases List.length_eq_zero_iff.mp (Nat.le_zero.mp h)
    cases hname : parseSegmentName q raw [] with
    | error e =>
      rw [parseSegments, hname] at he
      cases he
      exact parseSegmentName_error hname rfl
    | ok n => exact absurd (parseSegmentName_length q raw hname) (Nat.not_lt_zero _)
  | succ fuel ih =>
    unfold parseSegments at he
    cases hname : parseSegmentName q raw rest with
    | error e =>
      rw [hname] at he
      cases he
      exact parseSegmentName_error hname rfl
    | ok n =>
      obtain ⟨name, remainder⟩ := n
      have hshort := parseSegmentName_length q raw hname
      simp only [hname, bind, Except.bind] at he
      cases hsub : parseSubscript q raw name remainder with
      | error e =>
        rw [hsub] at he
        cases he
        exact parseSubscript_error hsub rfl
      | ok s =>
        obtain ⟨segment, keys, tail⟩ := s
        have hle := parseSubscript_length q raw hsub
        simp only [hsub] at he
        split at he
        · cases he
        · rename_i after
          rw [List.length_cons] at hle
          split_ifs at he
          · simp [throw, throwThe, MonadExceptOf.throw] at he
          · cases hnext : parseSegments q raw fuel after with
            | error e =>
              rw [hnext] at he
              cases he
              exact ih (by omega) hnext
            | ok next =>
              rw [hnext] at he
              cases he
        · simp [throw, throwThe, MonadExceptOf.throw] at he

end

theorem parser_matches_pattern (q : Quoting) (raw : String) (hraw : '"' ∉ raw.toList) :
    ((∃ path, parseRedactionPath q raw = .ok path) ↔ raw.toList ∈ redactionFieldPathPattern) ∧
    (∀ path, parseRedactionPath q raw = .ok path →
      path.segments = (raw.toList.splitOn '.').map itemSegment) ∧
    (∀ key : String, key.toList ∈ redactionAnnotationPattern →
      ∃ path, parseRedactionPath q (annotationRedactionPath q key) = .ok path ∧
        path.segments = [{ name := "metadata" }, { name := "annotations" }, { name := key }]) ∧
    ∀ (text : String) (rest : List Char) (fuel : Nat), rest.length ≤ fuel →
      parseSegments q text fuel rest ≠ .error "" ∧
        parseSegments q text fuel rest = parseSegments q text rest.length rest := by
  have hsound : ∀ path, parseRedactionPath q raw = .ok path →
      raw.toList ∈ redactionFieldPathPattern ∧
      path.segments = (raw.toList.splitOn '.').map itemSegment := by
    intro path h
    unfold parseRedactionPath at h
    split_ifs at h
    cases hs : parseSegments q raw raw.toList.length raw.toList with
    | error e =>
      rw [hs] at h
      cases h
    | ok r =>
      rw [hs] at h
      cases h
      exact parseSegments_sound hraw hs
  refine ⟨⟨?_, parseRedactionPath_fieldPath q raw⟩, fun path h => (hsound path h).2,
    fun key hkey => ?_, ?_⟩
  · rintro ⟨path, h⟩
    exact (hsound path h).1
  · obtain ⟨hne, hchars⟩ := redactionAnnotationPattern_chars hkey
    exact ⟨_, parse_annotationRedactionPath q hchars fun he => hne (he ▸ rfl), rfl⟩
  · exact fun text rest fuel h => ⟨parseSegments_ends h, parseSegments_fuel q text h le_rfl⟩

theorem container_args_parsed :
    '"' ∉ "spec.containers[*].args".toList ∧
    ∃ path, parseRedactionPath .verbatim "spec.containers[*].args" = .ok path ∧
      "spec.containers[*].args".toList ∈ redactionFieldPathPattern ∧
      path.segments = [{ name := "spec" }, { name := "containers", wildcard := true },
          { name := "args" }] := by
  have hraw : '"' ∉ "spec.containers[*].args".toList := by decide
  obtain ⟨hiff, hsegments, -⟩ := parser_matches_pattern .verbatim "spec.containers[*].args" hraw
  have hparsed : ∃ path, parseRedactionPath .verbatim "spec.containers[*].args" = .ok path := ⟨_, rfl⟩
  obtain ⟨path, hpath⟩ := hparsed
  exact ⟨hraw, path, hpath, hiff.mp ⟨path, hpath⟩, hsegments path hpath⟩

end Kuberecord
