import Kuberecord.RedactionPaths

namespace Kuberecord

structure RedactionRule where
  fieldPath : String := ""
  annotation : String := ""
deriving DecidableEq

/-- What the validation of the custom resource lets through. -/
structure RedactionRule.Admitted (r : RedactionRule) : Prop where
  one : r.fieldPath ≠ "" ↔ r.annotation = ""
  fieldPath : r.fieldPath ≠ "" → r.fieldPath.toList ∈ redactionFieldPathPattern ∧
    r.fieldPath.length ≤ 253
  annotation : r.annotation ≠ "" → r.annotation.toList ∈ redactionAnnotationPattern ∧
    r.annotation.length ≤ 253

def redactionPath (q : Quoting) (rule : RedactionRule) : String :=
  if rule.annotation ≠ "" then annotationRedactionPath q rule.annotation else rule.fieldPath

def compact : List String → List String
  | [] => []
  | [s] => [s]
  | s :: s' :: l => if s = s' then compact (s' :: l) else s :: compact (s' :: l)

def canonicalRedaction (q : Quoting) (sinkFloor ruleExtra : List RedactionRule) : String :=
  let paths := ((sinkFloor ++ ruleExtra).map (redactionPath q)).filter (· ≠ "")
  "\n".intercalate (compact (paths.insertionSort (· ≤ ·)))

theorem splitOnAux_newline (s : String) (b i : String.Pos.Raw) (r : List String) :
    String.splitOnAux s "\n" b i 0 r = String.splitAux s (· == '\n') b i r := by
  have hsep : String.Pos.Raw.get "\n" 0 = '\n' := rfl
  fun_induction String.splitAux s (· == '\n') b i r with
  | case1 b i r hend r' => rw [String.splitOnAux, if_pos hend]
  | case2 b i r hend _ hget i' ih =>
    have hg : i.get s = '\n' := by simpa using hget
    have hi : i' = i + '\n' := by simp only [i', String.Pos.Raw.next, hg]
    have hb : i'.unoffsetBy (String.Pos.Raw.next "\n" 0) = i := hi ▸ rfl
    rw [String.splitOnAux, if_neg hend, hsep, if_pos hget, ← ih]
    simp only
    rw [if_pos (by decide)]
    exact congrArg (fun e => String.splitOnAux s "\n" i' i' 0 (b.extract s e :: r)) hb
  | case3 b i r hend _ hget ih =>
    rw [String.splitOnAux, if_neg hend, hsep, if_neg hget, ← ih]
    rfl

theorem splitOn_newline (s : String) : s.splitOn "\n" = (s.toList.splitOn '\n').map String.ofList := by
  rw [String.splitOn, if_neg (by decide), splitOnAux_newline]
  exact String.splitToList_of_valid s _

theorem splitOn_intercalate {l : List String} (h : ∀ s ∈ l, s ≠ "" ∧ '\n' ∉ s.toList) :
    (("\n".intercalate l).splitOn "\n").filter (· ≠ "") = l := by
  have hne : l.filter (· ≠ "") = l := List.filter_eq_self.mpr fun s hs => by simpa using (h s hs).1
  have hsep : "\n".toList = ['\n'] := rfl
  rw [splitOn_newline, String.toList_intercalate, hsep]
  cases l with
  | nil => decide
  | cons s l =>
    rw [List.splitOn_intercalate '\n' (fun t ht => ?_) (by simp), List.map_map]
    · have hid : String.ofList ∘ String.toList = id := funext fun s => String.ofList_toList
      rw [hid, List.map_id, hne]
    · obtain ⟨s', hs', rfl⟩ := List.mem_map.mp ht
      exact (h s' hs').2

section

variable {q : Quoting} {r : RedactionRule}

theorem RedactionRule.Admitted.path (h : r.Admitted) :
    redactionPath q r ≠ "" ∧ '\n' ∉ (redactionPath q r).toList ∧
    ∃ path, parseRedactionPath q (redactionPath q r) = .ok path := by
  by_cases ha : r.annotation = ""
  · have hf := h.one.mpr ha
    have hp := (h.fieldPath hf).1
    rw [redactionPath, if_neg (not_not.mpr ha)]
    exact ⟨hf, redactionFieldPathPattern_oneLine hp, parseRedactionPath_fieldPath q _ hp⟩
  · obtain ⟨-, hchars⟩ := redactionAnnotationPattern_chars (h.annotation ha).1
    have hplain : r.annotation.toList.all plainChar := List.all_eq_true.mpr fun c hc =>
      (annotationChar_plain (List.all_eq_true.mp hchars c hc)).1
    have htext := annotationRedactionPath_toList q hplain
    rw [redactionPath, if_pos ha]
    refine ⟨fun he => ?_, ?_, _, parse_annotationRedactionPath q hchars ha⟩
    · rw [he] at htext
      cases htext
    · have hkey : '\n' ∉ r.annotation.toList :=
        fun hc => absurd (List.all_eq_true.mp hplain _ hc) (by decide)
      rw [htext]
      simpa using hkey

end

theorem mem_fieldItem {w : List Char} (h : redactionSegmentPattern w) : w ∈ fieldItem :=
  ⟨w, mem_fieldName.mpr h, [], .inl rfl, List.append_nil w⟩

theorem mem_redactionFieldPathPattern (first : List Char) (names : List (List Char))
    (hf : redactionSegmentPattern first) (hn : ∀ w ∈ names, redactionSegmentPattern w) :
    first ++ (names.map ('.' :: ·)).flatten ∈ redactionFieldPathPattern := by
  refine ⟨first, mem_fieldItem hf, _, Language.mem_kstar.mpr ⟨_, rfl, fun w hw => ?_⟩, rfl⟩
  obtain ⟨name, hname, rfl⟩ := List.mem_map.mp hw
  exact ⟨['.'], rfl, name, mem_fieldItem (hn name hname), rfl⟩

end Kuberecord
