import Kuberecord.Policies
import Mathlib.Computability.Language

namespace Kuberecord

def plainChar (c : Char) : Bool := 0x20 ≤ c.toNat && c.toNat < 0x7f && c ≠ '"' && c ≠ '\\'

/-- `strconv.Quote` and `strconv.Unquote`. -/
structure Quoting where
  quote : String → String
  unquote : String → Except String String
  quote_plain : ∀ key, key.toList.all plainChar → (quote key).toList = '"' :: key.toList ++ ['"']
  unquote_plain : ∀ key, key.toList.all plainChar →
    unquote (String.ofList ('"' :: key.toList ++ ['"'])) = .ok key

def Quoting.verbatim : Quoting where
  quote key := String.ofList ('"' :: key.toList ++ ['"'])
  unquote text := .ok (String.ofList (text.toList.drop 1).dropLast)
  quote_plain := by simp
  unquote_plain := by simp

def nameStart (c : Char) : Bool := c.isAlpha || c = '_'

def nameRest (c : Char) : Bool := c.isAlphanum || c = '_' || c = '-'

def redactionSegmentPattern : List Char → Bool
  | [] => false
  | c :: name => nameStart c && name.all nameRest

def nameEnd (c : Char) : Bool := c = '.' || c = '['

section

variable (q : Quoting) (raw : String)

def annotationRedactionPath (key : String) : String := "metadata.annotations[" ++ q.quote key ++ "]"

def parseSegmentName (rest : List Char) : Except String (String × List Char) :=
  let name := rest.takeWhile (!nameEnd ·)
  if redactionSegmentPattern name then .ok (String.ofList name, rest.dropWhile (!nameEnd ·))
  else .error ("redaction path " ++ q.quote raw ++ ": " ++ q.quote (String.ofList name) ++
    " is not a valid field name")

def parseSubscript (name : String) :
    List Char → Except String (RedactionSegment × List RedactionSegment × List Char)
  | '[' :: rest =>
    if ']' ∈ rest then
      let subscript := rest.takeWhile (· ≠ ']')
      let remainder := (rest.dropWhile (· ≠ ']')).drop 1
      if subscript = ['*'] then .ok ({ name := name, wildcard := true }, [], remainder)
      else if subscript.head? = some '"' then
        match q.unquote (String.ofList subscript) with
        | .error err => .error ("redaction path " ++ q.quote raw ++ ": " ++ String.ofList subscript ++
            " is not a quoted key: " ++ err)
        | .ok key =>
          if key = "" then .error ("redaction path " ++ q.quote raw ++ ": quoted key is empty")
          else .ok ({ name := name }, [{ name := key }], remainder)
      else .error ("redaction path " ++ q.quote raw ++ ": subscript [" ++ String.ofList subscript ++
        "] must be [*] or a quoted key")
    else .error ("redaction path " ++ q.quote raw ++ ": unterminated " ++ q.quote "[" ++ " subscript")
  | rest => .ok ({ name := name }, [], rest)

def parseSegments : Nat → List Char → Except String (RedactionSegment × List RedactionSegment)
  | 0, rest => do
    let _ ← parseSegmentName q raw rest
    throw ""
  | fuel + 1, rest => do
    let (name, remainder) ← parseSegmentName q raw rest
    let (segment, keys, rest) ← parseSubscript q raw name remainder
    match rest with
    | [] => return (segment, keys)
    | '.' :: rest =>
      if rest = [] then throw ("redaction path " ++ q.quote raw ++ ": trailing " ++ q.quote ".")
      else
        let (next, more) ← parseSegments fuel rest
        return (segment, keys ++ next :: more)
    | rest => throw ("redaction path " ++ q.quote raw ++ ": expected " ++ q.quote "." ++
        " or end of path at " ++
        q.quote (String.ofList rest))

def parseRedactionPath : Except String RedactionPath :=
  if raw = "" then throw "redaction path is empty"
  else do
    let (segment, segments) ← parseSegments q raw raw.toList.length raw.toList
    return ⟨raw, segment :: segments, by simp⟩

theorem parseSegmentName_length {rest remainder : List Char} {name : String}
    (h : parseSegmentName q raw rest = .ok (name, remainder)) : remainder.length < rest.length := by
  simp only [parseSegmentName] at h
  split_ifs at h with hp
  simp only [Except.ok.injEq, Prod.mk.injEq] at h
  obtain ⟨-, rfl⟩ := h
  have hn : 0 < (rest.takeWhile (!nameEnd ·)).length := by
    refine List.length_pos_of_ne_nil fun hn => ?_
    rw [hn] at hp
    cases hp
  have hl := congrArg List.length (List.takeWhile_append_dropWhile (l := rest) (p := (!nameEnd ·)))
  rw [List.length_append] at hl
  omega

theorem parseSubscript_length {name : String} {rest remainder : List Char} {segment : RedactionSegment}
    {keys : List RedactionSegment}
    (h : parseSubscript q raw name rest = .ok (segment, keys, remainder)) :
    remainder.length ≤ rest.length := by
  unfold parseSubscript at h
  split at h
  · rename_i rest
    have hl : ((rest.dropWhile (· ≠ ']')).drop 1).length ≤ ('[' :: rest).length :=
      (List.drop_sublist _ _).length_le.trans ((List.dropWhile_suffix _).length_le.trans (Nat.le_succ _))
    dsimp only at h
    split_ifs at h
    · cases h
      exact hl
    · split at h
      · cases h
      · split_ifs at h
        cases h
        exact hl
  · cases h
    exact le_rfl

theorem parseSegments_fuel {fuel fuel' : Nat} {rest : List Char} (h : rest.length ≤ fuel)
    (h' : rest.length ≤ fuel') :
    parseSegments q raw fuel rest = parseSegments q raw fuel' rest := by
  induction fuel generalizing fuel' rest with
  | zero =>
    cases List.length_eq_zero_iff.mp (Nat.le_zero.mp h)
    cases fuel' <;> rfl
  | succ fuel ih =>
    cases fuel' with
    | zero =>
      cases List.length_eq_zero_iff.mp (Nat.le_zero.mp h')
      rfl
    | succ fuel' =>
      simp only [parseSegments]
      cases hname : parseSegmentName q raw rest with
      | error err => rfl
      | ok r =>
        obtain ⟨name, remainder⟩ := r
        have hr := parseSegmentName_length q raw hname
        simp only [bind, Except.bind]
        cases hsub : parseSubscript q raw name remainder with
        | error err => rfl
        | ok r =>
          obtain ⟨segment, keys, tail⟩ := r
          have ht := parseSubscript_length q raw hsub
          simp only
          split
          · rfl
          · rename_i after
            rw [List.length_cons] at ht
            rw [ih (show after.length ≤ fuel by omega) (show after.length ≤ fuel' by omega)]
          · rfl

end

open scoped Computability

def charClass (p : Char → Bool) : Language Char := {w | ∃ c, p c ∧ w = [c]}

def fieldName : Language Char := charClass nameStart * (charClass nameRest)∗

def fieldItem : Language Char := fieldName * (1 + {"[*]".toList})

def redactionFieldPathPattern : Language Char := fieldItem * ({['.']} * fieldItem)∗

def lowerAlphanum (c : Char) : Bool := c.isLower || c.isDigit

def redactionAnnotationPattern : Language Char :=
  (1 + charClass lowerAlphanum *
      (1 + (charClass fun c => c = '-' || lowerAlphanum c || c = '.')∗ * charClass lowerAlphanum) *
      {['/']}) *
    (charClass Char.isAlphanum *
      (1 + (charClass fun c => c = '-' || c.isAlphanum || c = '_' || c =
      '.')∗ * charClass Char.isAlphanum))

theorem mem_charClass_kstar {p : Char → Bool} {w : List Char} : w ∈ (charClass p)∗ ↔ w.all p := by
  rw [Language.mem_kstar]
  constructor
  · rintro ⟨parts, rfl, h⟩
    rw [List.all_eq_true]
    intro c hc
    obtain ⟨part, hpart, hc⟩ := List.mem_flatten.mp hc
    obtain ⟨c', hp, rfl⟩ := h part hpart
    rw [List.mem_singleton.mp hc]
    exact hp
  · intro h
    refine ⟨w.map ([·]), by simp [← List.flatMap_def], fun part hpart => ?_⟩
    obtain ⟨c, hc, rfl⟩ := List.mem_map.mp hpart
    exact ⟨c, List.all_eq_true.mp h c hc, rfl⟩

theorem mem_fieldName {w : List Char} : w ∈ fieldName ↔ redactionSegmentPattern w := by
  constructor
  · intro h
    obtain ⟨_, ⟨c, hc, rfl⟩, rest, hrest, rfl⟩ := Language.mem_mul.mp h
    rw [List.singleton_append, redactionSegmentPattern, hc, mem_charClass_kstar.mp hrest]
    rfl
  · intro h
    cases w with
    | nil => cases h
    | cons c rest =>
      rw [redactionSegmentPattern, Bool.and_eq_true] at h
      exact ⟨[c], ⟨c, h.1, rfl⟩, rest, mem_charClass_kstar.mpr h.2, rfl⟩

theorem nameEnd_cases {c : Char} (h : nameEnd c) : nameStart c = false ∧ nameRest c = false := by
  rcases (by simpa only [nameEnd, Bool.or_eq_true,
    decide_eq_true_eq] using h : c = '.' ∨ c = '[') with rfl | rfl
  · decide
  · decide

theorem not_nameEnd {name : List Char} (h : redactionSegmentPattern name) :
    ∀ c ∈ name, (!nameEnd c) = true := by
  intro d hd
  rw [Bool.not_eq_true', ← Bool.not_eq_true]
  intro he
  have ⟨hs, hr⟩ := nameEnd_cases he
  cases name with
  | nil => cases hd
  | cons c name =>
    simp only [redactionSegmentPattern, Bool.and_eq_true, List.all_eq_true] at h
    rcases List.mem_cons.mp hd with rfl | hd
    · rw [h.1] at hs
      cases hs
    · rw [h.2 d hd] at hr
      cases hr

theorem fieldItem_ne_nil {w : List Char} (h : w ∈ fieldItem) : w ≠ [] := by
  obtain ⟨name, hname, sub, -, rfl⟩ := Language.mem_mul.mp h
  intro hn
  rw [(List.append_eq_nil_iff.mp hn).1] at hname
  exact absurd (mem_fieldName.mp hname) (by decide)

section

variable (q : Quoting) (raw : String)

theorem parseSegmentName_append {name rest : List Char} (hn : redactionSegmentPattern name)
    (hr : rest.head?.all nameEnd) :
    parseSegmentName q raw (name ++ rest) = .ok (String.ofList name, rest) := by
  have htake : rest.takeWhile (!nameEnd ·) = [] := by
    cases rest with
    | nil => rfl
    | cons c rest => exact List.takeWhile_cons_of_neg (by simpa using hr)
  have hdrop : rest.dropWhile (!nameEnd ·) = rest := by
    cases rest with
    | nil => rfl
    | cons c rest => exact List.dropWhile_cons_of_neg (by simpa using hr)
  simp only [parseSegmentName, List.takeWhile_append_of_pos (not_nameEnd hn),
    List.dropWhile_append_of_pos (not_nameEnd hn), htake, hdrop, List.append_nil, hn, if_true]

theorem parseSubscript_wildcard (name : String) (rest : List Char) :
    parseSubscript q raw name ("[*]".toList ++ rest) = .ok
      ({ name := name, wildcard := true }, [], rest) := by
  have ht : ('*' :: ']' :: rest).takeWhile (· ≠ ']') = ['*'] := rfl
  have hd : ('*' :: ']' :: rest).dropWhile (· ≠ ']') = ']' :: rest := rfl
  have hl : "[*]".toList ++ rest = '[' :: '*' :: ']' :: rest := rfl
  rw [hl, parseSubscript, if_pos (by simp)]
  simp only [ht, hd, if_true, List.drop_one, List.tail_cons]

theorem parseSubscript_none (name : String) {rest : List Char}
    (h : rest = [] ∨ ∃ after, rest = '.' :: after) :
    parseSubscript q raw name rest = .ok ({ name := name }, [], rest) := by
  rcases h with rfl | ⟨after, rfl⟩
  · rfl
  · rfl

theorem parse_fieldItem {w rest : List Char} (hw : w ∈ fieldItem)
    (hr : rest = [] ∨ ∃ after, rest = '.' :: after) :
    ∃ name remainder segment, parseSegmentName q raw (w ++ rest) = .ok (name, remainder) ∧
      parseSubscript q raw name remainder = .ok (segment, [], rest) := by
  obtain ⟨name, hname, sub, hsub, rfl⟩ := Language.mem_mul.mp hw
  have hn := mem_fieldName.mp hname
  rw [List.append_assoc]
  rcases (Language.mem_add _ _ _).mp hsub with rfl | rfl
  · refine ⟨_, _, _, parseSegmentName_append q raw hn ?_, parseSubscript_none q raw _ hr⟩
    rcases hr with rfl | ⟨after, rfl⟩
    · rfl
    · rfl
  · exact ⟨_, _, _, parseSegmentName_append q raw hn rfl, parseSubscript_wildcard q raw _ rest⟩

theorem parseSegments_fieldPath (items : List (List Char))
    (hitems : ∀ w ∈ items, w ∈ {['.']} * fieldItem) {first : List Char}
    (hfirst : first ∈ fieldItem) {fuel : Nat} (hf : (first ++ items.flatten).length ≤ fuel) :
    ∃ r, parseSegments q raw fuel (first ++ items.flatten) = .ok r := by
  have hpos := List.length_pos_of_ne_nil (fieldItem_ne_nil hfirst)
  rw [List.length_append] at hf
  obtain ⟨fuel, rfl⟩ := Nat.exists_eq_succ_of_ne_zero (show fuel ≠ 0 by omega)
  induction items generalizing first fuel with
  | nil =>
    obtain ⟨name, remainder, segment, hname, hsub⟩ := parse_fieldItem q raw hfirst (.inl rfl)
    refine ⟨(segment, []), ?_⟩
    simp only [List.flatten_nil, parseSegments, hname, hsub, bind, Except.bind]
    rfl
  | cons item items ih =>
    obtain ⟨_, rfl, next, hnext, rfl⟩ := Language.mem_mul.mp (hitems item (.head _))
    obtain ⟨name, remainder, segment, hname, hsub⟩ :=
      parse_fieldItem q raw hfirst (.inr ⟨next ++ items.flatten, rfl⟩)
    have hnpos := List.length_pos_of_ne_nil (fieldItem_ne_nil hnext)
    have hne : next ++ items.flatten ≠ [] :=
      fun h => fieldItem_ne_nil hnext (List.append_eq_nil_iff.mp h).1
    simp only [List.flatten_cons, List.length_append, List.length_cons, List.length_nil] at hf
    obtain ⟨fuel, rfl⟩ := Nat.exists_eq_succ_of_ne_zero (show fuel ≠ 0 by omega)
    obtain ⟨r, hr⟩ := ih (fun w hw => hitems w (.tail _ hw)) hnext hnpos fuel (by omega)
    refine ⟨(segment, r.1 :: r.2), ?_⟩
    rw [List.flatten_cons, List.append_assoc, List.singleton_append, parseSegments]
    simp only [hname, hsub, bind, Except.bind, if_neg hne, hr]
    rfl

theorem parseRedactionPath_raw {path : RedactionPath} (h : parseRedactionPath q raw = .ok path) :
    path.raw = raw := by
  unfold parseRedactionPath at h
  split_ifs at h
  cases hs : parseSegments q raw raw.toList.length raw.toList with
  | error err =>
    rw [hs] at h
    cases h
  | ok r =>
    rw [hs] at h
    cases h
    rfl

theorem parseRedactionPath_of_segments {r : RedactionSegment × List RedactionSegment} (hne : raw ≠ "")
    (h : parseSegments q raw raw.toList.length raw.toList = .ok r) :
    parseRedactionPath q raw = .ok ⟨raw, r.1 :: r.2, List.cons_ne_nil _ _⟩ := by
  rw [parseRedactionPath, if_neg hne, h]
  rfl

theorem parseRedactionPath_fieldPath (h : raw.toList ∈ redactionFieldPathPattern) :
    ∃ path, parseRedactionPath q raw = .ok path := by
  obtain ⟨first, hfirst, more, hmore, ht⟩ := Language.mem_mul.mp h
  obtain ⟨items, rfl, hitems⟩ := Language.mem_kstar.mp hmore
  obtain ⟨r, hr⟩ := parseSegments_fieldPath q raw items hitems hfirst le_rfl
  rw [ht] at hr
  refine ⟨_, parseRedactionPath_of_segments q raw ?_ hr⟩
  rintro rfl
  exact fieldItem_ne_nil hfirst (List.append_eq_nil_iff.mp ht).1

end

def annotationChar (c : Char) : Bool := c.isAlphanum || c = '-' || c = '_' || c = '.' || c = '/'

theorem annotationChar_plain {c : Char} (h : annotationChar c) : plainChar c ∧ c ≠ ']' := by
  simp only [annotationChar, Bool.or_eq_true, decide_eq_true_eq] at h
  rcases h with (((h | rfl) | rfl) | rfl) | rfl
  · have hne : c ≠ '"' ∧ c ≠ '\\' ∧ c ≠ ']' := by
      refine ⟨?_, ?_, ?_⟩ <;> rintro rfl <;> exact absurd h (by decide)
    delta Char.isAlphanum Char.isAlpha Char.isUpper Char.isLower Char.isDigit at h
    simp only [Bool.or_eq_true, Bool.and_eq_true, decide_eq_true_eq, UInt32.le_iff_toNat_le,
      ge_iff_le] at h
    have ha : 'A'.val.toNat = 65 := rfl
    have hz : 'z'.val.toNat = 122 := rfl
    have hb : 'Z'.val.toNat = 90 := rfl
    have hl : 'a'.val.toNat = 97 := rfl
    have h0 : '0'.val.toNat = 48 := rfl
    have h9 : '9'.val.toNat = 57 := rfl
    have hrange : 0x20 ≤ c.val.toNat ∧ c.val.toNat < 0x7f := by omega
    exact ⟨by simpa [plainChar, hne] using hrange, hne.2.2⟩
  all_goals decide

theorem all_of_mem_mul {p : Char → Bool} {l m : Language Char} (hl : ∀ w ∈ l, w.all p)
    (hm : ∀ w ∈ m, w.all p) :
    ∀ w ∈ l * m, w.all p := by
  rintro w hw
  obtain ⟨a, ha, b, hb, rfl⟩ := Language.mem_mul.mp hw
  rw [List.all_append, hl a ha, hm b hb]
  rfl

theorem all_of_mem_opt {p : Char → Bool} {l : Language Char} (hl : ∀ w ∈ l, w.all p) :
    ∀ w ∈ 1 + l, w.all p := by
  intro w hw
  rcases (Language.mem_add _ _ _).mp hw with rfl | hw
  · rfl
  · exact hl w hw

theorem all_of_mem_charClass {p p' : Char → Bool} (h : ∀ c, p' c → p c) :
    ∀ w ∈ charClass p', w.all p := by
  rintro _ ⟨c, hc, rfl⟩
  simpa using h c hc

theorem all_of_mem_kstar {p : Char → Bool} {l : Language Char} (hl : ∀ w ∈ l, w.all p) :
    ∀ w ∈ l∗, w.all p := by
  intro w hw
  obtain ⟨parts, rfl, hparts⟩ := Language.mem_kstar.mp hw
  rw [List.all_eq_true]
  intro c hc
  obtain ⟨part, hpart, hc⟩ := List.mem_flatten.mp hc
  exact List.all_eq_true.mp (hl part (hparts part hpart)) c hc

theorem lowerAlphanum_alphanum {c : Char} (h : lowerAlphanum c) : c.isAlphanum := by
  simp only [lowerAlphanum, Bool.or_eq_true] at h
  delta Char.isAlphanum Char.isAlpha
  simp only [Bool.or_eq_true]
  tauto

theorem redactionAnnotationPattern_chars {w : List Char} (h : w ∈ redactionAnnotationPattern) :
    w ≠ [] ∧ w.all annotationChar := by
  have alnum : ∀ c : Char, c.isAlphanum → annotationChar c := fun c hc => by simp [annotationChar, hc]
  have lower : ∀ c : Char, lowerAlphanum c → annotationChar c :=
    fun c hc => alnum c (lowerAlphanum_alphanum hc)
  constructor
  · rintro rfl
    obtain ⟨a, -, b, hb, hab⟩ := Language.mem_mul.mp h
    cases (List.append_eq_nil_iff.mp hab).2
    obtain ⟨_, ⟨c, -, rfl⟩, b, -, hcb⟩ := Language.mem_mul.mp hb
    cases hcb
  · refine all_of_mem_mul (all_of_mem_opt (all_of_mem_mul (all_of_mem_mul (all_of_mem_charClass lower)
      (all_of_mem_opt (all_of_mem_mul (all_of_mem_kstar (all_of_mem_charClass ?_))
      (all_of_mem_charClass lower)))) ?_))
      (all_of_mem_mul (all_of_mem_charClass alnum)
      (all_of_mem_opt (all_of_mem_mul (all_of_mem_kstar (all_of_mem_charClass ?_))
      (all_of_mem_charClass alnum)))) w h
    · intro c hc
      simp only [Bool.or_eq_true, decide_eq_true_eq] at hc
      rcases hc with (rfl | hc) | rfl
      · rfl
      · exact lower c hc
      · rfl
    · rintro _ rfl
      rfl
    · intro c hc
      simp only [Bool.or_eq_true, decide_eq_true_eq] at hc
      rcases hc with ((rfl | hc) | rfl) | rfl
      · rfl
      · exact alnum c hc
      · rfl
      · rfl

theorem redactionFieldPathPattern_oneLine {w : List Char} (h : w ∈ redactionFieldPathPattern) :
    '\n' ∉ w := by
  have hname : ∀ w ∈ fieldName, w.all (· ≠ '\n') := by
    refine all_of_mem_mul (all_of_mem_charClass fun c hc => ?_)
      (all_of_mem_kstar (all_of_mem_charClass fun c hc => ?_)) <;>
    · rw [decide_eq_true_eq]
      rintro rfl
      exact absurd hc (by decide)
  have hitem : ∀ w ∈ fieldItem, w.all (· ≠ '\n') := by
    refine all_of_mem_mul hname (all_of_mem_opt ?_)
    rintro _ rfl
    decide
  have hmore : ∀ w ∈ ({['.']} : Language Char) * fieldItem, w.all (· ≠ '\n') := by
    refine all_of_mem_mul ?_ hitem
    rintro _ rfl
    decide
  have hall := all_of_mem_mul hitem (all_of_mem_kstar hmore) w h
  exact fun hc => absurd (List.all_eq_true.mp hall _ hc) (by decide)

section

variable (q : Quoting)

theorem annotationRedactionPath_toList {key : String} (h : key.toList.all plainChar) :
    (annotationRedactionPath q key).toList =
      "metadata".toList ++ '.' :: ("annotations".toList ++
          '[' :: ('"' :: key.toList ++ ['"'] ++ [']'])) := by
  have hl : "metadata.annotations[".toList = "metadata".toList ++
    '.' :: ("annotations".toList ++ ['[']) := by
    decide
  have hr : "]".toList = [']'] := by decide
  have happ (a b c : String) : (a ++ b ++ c).toList = a.toList ++ (b.toList ++ c.toList) := by
    rw [String.toList_append, String.toList_append, List.append_assoc]
  calc (annotationRedactionPath q key).toList
      = "metadata.annotations[".toList ++ ((q.quote key).toList ++ "]".toList) := happ _ _ _
    _ = ("metadata".toList ++ '.' :: ("annotations".toList ++ ['['])) ++
      ('"' :: key.toList ++ ['"'] ++ [']']) :=
        congrArg₂ (· ++ ·) hl (congrArg₂ (· ++ ·) (q.quote_plain key h) hr)
    _ = _ := by simp only [List.append_assoc, List.cons_append, List.nil_append]

theorem parseSubscript_quoted (raw name : String) {key : String} (hplain : key.toList.all plainChar)
    (hend : ']' ∉ key.toList) (hne : key ≠ "") :
    parseSubscript q raw name ('[' :: ('"' :: key.toList ++ ['"'] ++ [']'])) =
      .ok ({ name := name }, [{ name := key }], []) := by
  have hkey : ∀ c ∈ '"' :: key.toList ++ ['"'], decide (c ≠ ']') = true := by
    intro c hc
    simp only [List.cons_append, List.mem_cons, List.mem_append, List.not_mem_nil, or_false] at hc
    rw [decide_eq_true_eq]
    rintro rfl
    rcases hc with hc | hc | hc
    · cases hc
    · exact hend hc
    · cases hc
  have ht : ('"' :: key.toList ++ ['"'] ++ [']']).takeWhile (· ≠ ']') = '"' :: key.toList ++ ['"'] := by
    rw [List.takeWhile_append_of_pos hkey]
    exact List.append_nil _
  have hd : ('"' :: key.toList ++ ['"'] ++ [']']).dropWhile (· ≠ ']') = [']'] := by
    rw [List.dropWhile_append_of_pos hkey]
    rfl
  have hstar : '"' :: key.toList ++ ['"'] ≠ ['*'] := by
    intro h
    cases List.head_eq_of_cons_eq h
  rw [parseSubscript, if_pos (by simp)]
  simp only [ht, hd, if_neg hstar, q.unquote_plain key hplain, if_neg hne]
  rfl

theorem parse_annotationRedactionPath {key : String} (hchars : key.toList.all annotationChar)
    (hne : key ≠ "") :
    parseRedactionPath q (annotationRedactionPath q key) = .ok {
      raw := annotationRedactionPath q key
      segments := [{ name := "metadata" }, { name := "annotations" }, { name := key }]
      nonempty := List.cons_ne_nil _ _ } := by
  rw [List.all_eq_true] at hchars
  have hplain : key.toList.all plainChar :=
    List.all_eq_true.mpr fun c hc => (annotationChar_plain (hchars c hc)).1
  have hend : ']' ∉ key.toList := fun hc => (annotationChar_plain (hchars _ hc)).2 rfl
  have htext := annotationRedactionPath_toList q hplain
  refine parseRedactionPath_of_segments q _
    (r := ({ name := "metadata" }, [{ name := "annotations" }, { name := key }]))
    ?_ ?_
  · intro h
    rw [h] at htext
    cases htext
  · generalize annotationRedactionPath q key = raw at htext ⊢
    have hm : redactionSegmentPattern "metadata".toList := by decide
    have ha : redactionSegmentPattern "annotations".toList := by decide
    have hsub := parseSubscript_quoted q raw (String.ofList "annotations".toList) hplain hend hne
    rw [htext]
    generalize '"' :: key.toList ++ ['"'] ++ [']'] = quoted at hsub ⊢
    have hnext : "annotations".toList ++ '[' :: quoted ≠ [] := by simp
    have hlen : ("metadata".toList ++ '.' :: ("annotations".toList ++ '[' :: quoted)).length =
      quoted.length + 20 + 1 := by
      simp
    rw [hlen, parseSegments, parseSegmentName_append q raw hm rfl]
    simp only [bind, Except.bind, parseSubscript_none q raw _ (.inr ⟨_, rfl⟩), if_neg hnext]
    rw [parseSegments, parseSegmentName_append q raw ha rfl]
    simp only [bind, Except.bind, hsub]
    rfl

theorem builtinRedaction_raw : ∀ path ∈ builtinRedaction.paths,
    path.raw = annotationRedactionPath q lastAppliedConfigAnnotation := by
  intro path hp
  rw [List.mem_singleton.mp hp]
  refine String.toList_injective ((annotationRedactionPath_toList q (by decide)).trans ?_).symm
  decide

theorem builtinRedaction_compiled : builtinRedaction.Compiled (parseRedactionPath q) := by
  intro path hp
  have hr := builtinRedaction_raw q path hp
  have hs : path.segments = [{ name := "metadata" }, { name := "annotations" },
    { name := lastAppliedConfigAnnotation }] :=
    List.mem_singleton.mp hp ▸ rfl
  obtain ⟨raw, segments, hne⟩ := path
  subst hr hs
  exact parse_annotationRedactionPath q (by decide) (by decide)

end

end Kuberecord
