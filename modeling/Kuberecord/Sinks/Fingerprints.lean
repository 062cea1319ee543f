import Kuberecord.Library.Records
import Kuberecord.Sinks.Routing

namespace Kuberecord

namespace ClickHouse

abbrev Duration := Int64

structure Config where
  addr : String
  database : String
  username : String
  password : String
  dialTimeout : Duration
  readTimeout : Duration
  autoCreateSchema : Bool
  batchMaxRows : Int
  batchMaxWait : Duration
  writeQueueSize : Int
  writeWorkers : Int
  enqueueTimeout : Duration
  shutdownDrainTimeout : Duration
  checkpointEvery : Int
deriving DecidableEq

/-- The `%q` verb, `Duration.String` and the hexadecimal SHA-256 digest. -/
structure Format where
  quote : String → String
  duration : Duration → String
  digest : String → String

/-- `%q` writes a quotation mark last, and escapes any other that it writes inside. -/
structure Format.Faithful (f : Format) : Prop where
  quote_inj : Function.Injective f.quote
  quoted : ∀ s, Records.Quoted '"' '\\' (f.quote s).toList
  duration_inj : Function.Injective f.duration
  digest_inj : Function.Injective f.digest

namespace Config

variable (f : Format) (c : Config)

def settings : String :=
  "addr=" ++ f.quote c.addr ++ " db=" ++ f.quote c.database ++ " user=" ++ f.quote c.username ++
    " pass=" ++ f.quote c.password ++ " dial=" ++ f.quote (f.duration c.dialTimeout) ++
    " read=" ++ f.quote (f.duration c.readTimeout) ++ " autocreate=" ++ toString c.autoCreateSchema ++
    " batchrows=" ++ c.batchMaxRows.repr ++ " batchwait=" ++ f.quote (f.duration c.batchMaxWait) ++
    " queue=" ++ c.writeQueueSize.repr ++ " workers=" ++ c.writeWorkers.repr ++
    " enqueue=" ++ f.quote (f.duration c.enqueueTimeout) ++
    " drain=" ++ f.quote (f.duration c.shutdownDrainTimeout) ++ " checkpoint=" ++ c.checkpointEvery.repr

def fingerprint : String := f.digest (c.settings f)

def fields : List (List Char × List Char) :=
  [(" addr=", f.quote c.addr), (" db=", f.quote c.database), (" user=", f.quote c.username),
    (" pass=", f.quote c.password), (" dial=", f.quote (f.duration c.dialTimeout)),
    (" read=", f.quote (f.duration c.readTimeout)), (" autocreate=", toString c.autoCreateSchema),
    (" batchrows=", c.batchMaxRows.repr), (" batchwait=", f.quote (f.duration c.batchMaxWait)),
    (" queue=", c.writeQueueSize.repr), (" workers=", c.writeWorkers.repr),
    (" enqueue=", f.quote (f.duration c.enqueueTimeout)),
    (" drain=", f.quote (f.duration c.shutdownDrainTimeout)),
    (" checkpoint=", c.checkpointEvery.repr)].map fun p => (p.1.toList, p.2.toList)

theorem settings_toList : ' ' :: (c.settings f).toList = Records.record (c.fields f) := by
  have haddr : " addr=".toList = ' ' :: "addr=".toList := by decide
  unfold settings fields Records.record
  simp only [List.map_cons, List.map_nil, List.flatMap_cons, List.flatMap_nil]
  rw [haddr]
  simp only [String.toList_append, List.append_assoc, List.append_nil]
  simp only [List.cons_append]

theorem notMem_repr {ch : Char} (hch : ch.isDigit = false) (n : Nat) : ch ∉ n.repr.toList := by
  intro hmem
  rw [Nat.toList_repr] at hmem
  have hdigit := Nat.isDigit_of_mem_toDigits (by decide) (by decide) hmem
  rw [hch] at hdigit
  cases hdigit

theorem repr_no_space (n : Int) : ' ' ∉ n.repr.toList := by
  cases n with
  | ofNat k => exact notMem_repr (by decide) k
  | negSucc k =>
    rw [Int.repr, String.toList_append]
    exact fun hk => (List.mem_append.mp hk).elim (by decide) (notMem_repr (by decide) _)

theorem natRepr_injective : Function.Injective Nat.repr := by
  intro m n h
  have hlist : Nat.toDigits 10 m = Nat.toDigits 10 n := String.ofList_inj.mp h
  calc m = Nat.ofDigitChars 10 (Nat.toDigits 10 m) 0 :=
        (Nat.ofDigitChars_toDigits (by decide) (by decide)).symm
    _ = Nat.ofDigitChars 10 (Nat.toDigits 10 n) 0 := by rw [hlist]
    _ = n := Nat.ofDigitChars_toDigits (by decide) (by decide)

theorem ofNat_repr_ne (m n : Nat) : (Int.ofNat m).repr ≠ (Int.negSucc n).repr := by
  intro h
  apply notMem_repr (show Char.isDigit '-' = false by decide) m
  change '-' ∈ (Int.ofNat m).repr.toList
  rw [h, Int.repr, String.toList_append]
  exact List.mem_append_left _ (by decide)

-- `Int.repr_inj` needs the whole library imported
theorem repr_injective : Function.Injective Int.repr := by
  intro a b h
  match a, b with
  | .ofNat m, .ofNat n => rw [natRepr_injective h]
  | .ofNat m, .negSucc n => exact absurd h (ofNat_repr_ne m n)
  | .negSucc m, .ofNat n => exact absurd h.symm (ofNat_repr_ne n m)
  | .negSucc m, .negSucc n =>
    have hlist := String.toList_inj.mpr h
    simp only [Int.repr, String.toList_append, List.append_cancel_left_eq] at hlist
    rw [Nat.succ_injective (natRepr_injective (String.toList_inj.mp hlist))]

theorem toString_no_space (b : Bool) : ' ' ∉ (toString b).toList := by cases b <;> decide

variable {f}

theorem alike_quoted (hf : f.Faithful) {label : List Char} (h : label.head? = some ' ') (a b : String) :
    Records.Alike ' ' (label, (f.quote a).toList) (label, (f.quote b).toList) :=
  ⟨h, rfl, _, Records.selfDelimiting_quoted ' ', hf.quoted a, hf.quoted b⟩

theorem alike_repr {label : List Char} (h : label.head? = some ' ') (a b : Int) :
    Records.Alike ' ' (label, a.repr.toList) (label, b.repr.toList) :=
  ⟨h, rfl, _, Records.selfDelimiting_of_not_mem ' ', repr_no_space a, repr_no_space b⟩

theorem alike_bool {label : List Char} (h : label.head? = some ' ') (a b : Bool) :
    Records.Alike ' ' (label, (toString a).toList) (label, (toString b).toList) :=
  ⟨h, rfl, _, Records.selfDelimiting_of_not_mem ' ', toString_no_space a, toString_no_space b⟩

theorem settings_injective (hf : f.Faithful) : Function.Injective (settings f) := by
  intro c d h
  have htext := congrArg (fun s : String => ' ' :: s.toList) h
  simp only [settings_toList] at htext
  have hfields : c.fields f = d.fields f := by
    refine @Records.record_inj _ ' ' _ _ ?_ htext
    simp only [fields, List.map_cons, List.map_nil, List.forall₂_cons,
      List.forall₂_nil_left_iff, and_true]
    refine ⟨alike_quoted hf ?_ .., alike_quoted hf ?_ .., alike_quoted hf ?_ .., alike_quoted hf ?_ ..,
      alike_quoted hf ?_ .., alike_quoted hf ?_ .., alike_bool ?_ .., alike_repr ?_ ..,
      alike_quoted hf ?_ ..,
      alike_repr ?_ .., alike_repr ?_ .., alike_quoted hf ?_ .., alike_quoted hf ?_ .., alike_repr ?_ ..⟩
    all_goals decide
  have hquote : ∀ {a b : String}, (f.quote a).toList = (f.quote b).toList → a = b := fun h =>
    hf.quote_inj (String.toList_inj.mp h)
  have hduration : ∀ {a b : Duration},
      (f.quote (f.duration a)).toList = (f.quote (f.duration b)).toList → a = b :=
      fun h => hf.duration_inj (hquote h)
  have hrepr : ∀ {a b : Int}, a.repr.toList = b.repr.toList → a = b := fun h =>
    repr_injective (String.toList_inj.mp h)
  have hbool : ∀ {a b : Bool}, (toString a).toList = (toString b).toList → a = b := by decide
  simp only [fields, List.map_cons, List.map_nil, List.cons.injEq, Prod.mk.injEq, true_and,
    and_true] at hfields
  obtain ⟨h₁, h₂, h₃, h₄, h₅, h₆, h₇, h₈, h₉, h₁₀, h₁₁, h₁₂, h₁₃, h₁₄⟩ := hfields
  cases c
  cases d
  rw [mk.injEq]
  exact ⟨hquote h₁, hquote h₂, hquote h₃, hquote h₄, hduration h₅, hduration h₆, hbool h₇, hrepr h₈,
    hduration h₉,
    hrepr h₁₀, hrepr h₁₁, hduration h₁₂, hduration h₁₃, hrepr h₁₄⟩

end Config

end ClickHouse

section Built

variable {Cfg : Type} {lib : SinkLib Cfg} {m m' : SinkManager Cfg} {S : String → Cfg → Prop}

structure SinkManager.Built (lib : SinkLib Cfg) (S : String → Cfg →
    Prop) (m : SinkManager Cfg) : Prop where
  live : ∀ p ∈ m.live, ∃ cfg, S p.1 cfg ∧ p.2.fingerprint = lib.fingerprint cfg
  pending : ∀ p ∈ m.pending, S p.1 p.2
  up : m.live ≠ [] → m.started = true ∧ m.stopped = false

theorem SinkManager.started_ensureLocked (m : SinkManager Cfg) (name : String) (cfg : Cfg)
    (factory : Except String Unit) : (m.ensureLocked lib name cfg factory).2.started = m.started := by
  unfold ensureLocked
  simp only
  split_ifs
  · rfl
  · cases factory <;> rfl

namespace SinkManager.Built

theorem mono {S' : String → Cfg → Prop} (h : m.Built lib S) (hS : ∀ name cfg, S name cfg → S' name cfg) :
    m.Built lib S' where
  live p hp := by
    obtain ⟨cfg, hcfg, hf⟩ := h.live p hp
    exact ⟨cfg, hS _ _ hcfg, hf⟩
  pending p hp := hS _ _ (h.pending p hp)
  up := h.up

theorem ensureLocked (h : m.Built lib S) (hup : m.started = true ∧ m.stopped = false)
    {name : String} {cfg : Cfg} (hcfg : S name cfg) (factory : Except String Unit) :
    (m.ensureLocked lib name cfg factory).2.Built lib S := by
  unfold SinkManager.ensureLocked
  simp only
  split_ifs with hsame
  · exact ⟨h.live, h.pending, fun _ => hup⟩
  · cases factory with
    | error err => exact h
    | ok u =>
      refine ⟨fun p hp => ?_, h.pending, fun _ => hup⟩
      rcases List.mem_append.mp hp with hp | hp
      · exact h.live p (List.mem_filter.mp hp).1
      · rw [List.mem_singleton.mp hp]
        exact ⟨cfg, hcfg, rfl⟩

theorem ensure (h : m.Built lib S) {name : String} {cfg : Option Cfg}
    (hcfg : ∀ c ∈ cfg, name ≠ "" → S name c) (factory : Except String Unit) :
    (m.ensure lib name cfg factory).2.Built lib S := by
  cases cfg with
  | none =>
    unfold SinkManager.ensure
    split_ifs <;> exact h
  | some cfg =>
    unfold SinkManager.ensure
    split_ifs with hname hstop hstart
    · exact h
    · exact h
    · refine ⟨h.live, fun p hp => ?_, h.up⟩
      rcases List.mem_append.mp hp with hp | hp
      · exact h.pending p (List.mem_filter.mp hp).1
      · rw [List.mem_singleton.mp hp]
        exact hcfg cfg rfl hname
    · exact h.ensureLocked ⟨by simpa using hstart, by simpa using hstop⟩ (hcfg cfg rfl hname) factory

theorem delete (h : m.Built lib S) (name : String) : (m.delete name).Built lib S := by
  unfold SinkManager.delete
  split_ifs with hstop
  · exact h
  · have hlive : ∀ p ∈ (if (m.live.lookup name).isSome then swapLocked m.live name none else
      m.live), p ∈ m.live := by
      intro p hp
      split_ifs at hp
      · exact (show p ∈ m.live ∧ p.1 ≠ name by simpa [swapLocked] using hp).1
      · exact hp
    refine ⟨fun p hp => h.live p (hlive p hp), fun p hp => h.pending p (List.mem_filter.mp hp).1,
      fun hne => ?_⟩
    obtain ⟨p, hp⟩ := List.exists_mem_of_ne_nil _ hne
    exact h.up (List.ne_nil_of_mem (hlive p hp))

theorem start (h : m.Built lib S) (hs : m.stopped = false) (factory : String → Except String Unit) :
    (m.start lib factory).Built lib S := by
  have hfold (l : List (String × Cfg)) (hl : ∀ p ∈ l, S p.1 p.2) : ∀ m : SinkManager Cfg, m.Built lib S →
      m.started = true ∧ m.stopped = false →
      (l.foldl (fun m p => (m.ensureLocked lib p.1 p.2 (factory p.1)).2) m).Built lib S := by
    induction l with
    | nil => exact fun m hm _ => hm
    | cons p l ih =>
      intro m hm hup
      refine ih (fun p hp => hl p (.tail _ hp)) _ (hm.ensureLocked hup (hl p (.head _)) _) ?_
      rw [stopped_ensureLocked, started_ensureLocked]
      exact hup
  refine hfold _ (fun p hp => h.pending p ((List.mem_insertionSort _).mp hp)) _ ?_ ⟨rfl, hs⟩
  exact ⟨h.live, fun p hp => (by cases hp), fun _ => ⟨rfl, hs⟩⟩

theorem step {a : SinkStep Cfg} (h : m.Built lib S) (hc : m.Consistent) (hst : m.step lib a = some m')
    (ha : ∀ name cfg factory, a = .ensure name (some cfg) factory → name ≠ "" → S name cfg) :
    m'.Built lib S := by
  cases a with
  | ensure name cfg factory =>
    cases hst
    refine h.ensure (fun c hcfg hname => ?_) factory
    cases hcfg
    exact ha name c factory rfl hname
  | delete name =>
    cases hst
    exact h.delete name
  | start factory =>
    simp only [SinkManager.step, Option.ite_none_left_eq_some] at hst
    cases hst.2
    refine h.start ?_ factory
    by_contra hs
    exact hst.1 (hc.running (by simpa using hs))
  | shutdown =>
    simp only [SinkManager.step, Option.ite_none_right_eq_some] at hst
    cases hst.2
    exact ⟨fun p hp => (by cases hp), h.pending, fun hne => absurd rfl hne⟩
  | drainOwed inst =>
    simp only [SinkManager.step, Option.ite_none_right_eq_some] at hst
    cases hst.2
    exact ⟨h.live, h.pending, h.up⟩
  | tail n =>
    simp only [SinkManager.step] at hst
    split at hst
    · split_ifs at hst
      cases hst
      exact ⟨h.live, h.pending, h.up⟩
    · cases hst

end SinkManager.Built

def Declares (steps : List (SinkStep Cfg)) (name : String) (cfg : Cfg) : Prop :=
  name ≠ "" ∧ ∃ factory, SinkStep.ensure name (some cfg) factory ∈ steps

theorem built_of_run {steps : List (SinkStep Cfg)}
    (h : Runs.Run (SinkManager.step lib) (fun _ _ => True) {} steps m) :
    m.Consistent ∧ m.Built lib (Declares steps) := by
  induction h with
  | nil => exact ⟨.empty, fun p hp => (by cases hp), fun p hp => (by cases hp),
      fun hne => absurd rfl hne⟩
  | snoc _ _ hst ih =>
    refine ⟨ih.1.step hst, (ih.2.mono ?_).step ih.1 hst ?_⟩
    · rintro name cfg ⟨hname, factory, hmem⟩
      exact ⟨hname, factory, List.mem_append_left _ hmem⟩
    · rintro name cfg factory rfl hname
      exact ⟨hname, factory, List.mem_append_right _ (.head _)⟩

def SinkManager.Idles (lib : SinkLib Cfg) (m : SinkManager Cfg) (name : String) (cfg : Cfg)
    (factory : Except String Unit) : Prop :=
  (∀ err, (m.ensure lib name (some cfg) factory).1 ≠ .error err) ∧
    m.SameRouting (m.ensure lib name (some cfg) factory).2

theorem SinkManager.idles_iff {name : String} {cfg : Cfg} {factory : Except String Unit}
    {inst : LiveSink} (hname : name ≠ "") (hup : m.started = true ∧ m.stopped = false)
    (hlive : m.live.lookup name = some inst) :
    m.Idles lib name cfg factory ↔ inst.fingerprint = lib.fingerprint cfg := by
  have hens : m.ensure lib name (some cfg) factory = m.ensureLocked lib name cfg factory := by
    simp [ensure, hname, hup.1, hup.2]
  rw [Idles, hens]
  unfold ensureLocked
  simp only [hlive, Option.any_some, decide_eq_true_eq]
  split_ifs with hsame
  · exact ⟨fun _ => hsame, fun _ => ⟨fun err he => (by cases he), rfl, rfl, rfl⟩⟩
  · refine ⟨fun h => ?_, fun he => absurd he hsame⟩
    cases factory with
    | error err => exact absurd rfl (h.1 _)
    | ok u =>
      have hlen := congrArg List.length h.2.2.1
      simp at hlen

end Built

namespace ClickHouse

def sinkLib (f : Format) : SinkLib Config := ⟨Config.fingerprint f, f.quote⟩

theorem recycled_iff_changed (f : Format) (hf : f.Faithful) {steps : List (SinkStep Config)}
    {m : SinkManager Config}
    (h : Runs.Run (SinkManager.step (sinkLib f)) (fun _ _ => True) {} steps m) :
    Function.Injective (Config.settings f) ∧
    ∀ name inst, m.live.lookup name = some inst →
      ∃ running, (∃ factory, SinkStep.ensure name (some running) factory ∈ steps) ∧
        inst.fingerprint = running.fingerprint f ∧
        ∀ cfg factory, m.Idles (sinkLib f) name cfg factory ↔ cfg = running := by
  have hinj := Config.settings_injective hf
  refine ⟨hinj, fun name inst hlive => ?_⟩
  obtain ⟨l₁, l₂, hl, -⟩ := List.lookup_eq_some_iff.mp hlive
  have hmem : (name, inst) ∈ m.live := hl ▸ List.mem_append_right l₁ (.head l₂)
  obtain ⟨-, hbuilt⟩ := built_of_run h
  obtain ⟨running, ⟨hname, factory, hens⟩, hprint⟩ := hbuilt.live _ hmem
  refine ⟨running, ⟨factory, hens⟩, hprint, fun cfg factory => ?_⟩
  rw [SinkManager.idles_iff hname (hbuilt.up (List.ne_nil_of_mem hmem)) hlive, hprint]
  constructor
  · intro he
    exact (hinj (hf.digest_inj he)).symm
  · rintro rfl
    rfl

def escaped (c : Char) : List Char := if c = '"' ∨ c = '\\' then ['\\', c] else [c]

def plainFormat : Format where
  quote s := String.ofList ('"' :: (s.toList.flatMap escaped ++ ['"']))
  duration d := d.toInt.repr
  digest s := s

theorem closed_escaped (cs : List Char) :
    Records.closed '"' '\\' false (cs.flatMap escaped ++ ['"']) = true := by
  induction cs with
  | nil => decide
  | cons c cs ih =>
    rw [List.flatMap_cons, List.append_assoc]
    by_cases hc : c = '"' ∨ c = '\\'
    · rw [escaped, if_pos hc]
      exact ih
    · rw [escaped, if_neg hc]
      obtain ⟨hquote, hescape⟩ := not_or.mp hc
      simpa [Records.closed, hquote, hescape] using ih

theorem escaped_injective : ∀ cs ds : List Char, cs.flatMap escaped = ds.flatMap escaped → cs = ds := by
  have hlen : ∀ c, escaped c ≠ [] := fun c => by unfold escaped; split_ifs <;> simp
  intro cs
  induction cs with
  | nil =>
    intro ds h
    cases ds with
    | nil => rfl
    | cons d ds => exact absurd (List.append_eq_nil_iff.mp h.symm).1 (hlen d)
  | cons c cs ih =>
    intro ds h
    cases ds with
    | nil => exact absurd (List.append_eq_nil_iff.mp h).1 (hlen c)
    | cons d ds =>
      rw [List.flatMap_cons, List.flatMap_cons] at h
      unfold escaped at h
      split_ifs at h with hc hd hd
      · simp only [List.cons_append, List.nil_append, List.cons.injEq, true_and] at h
        rw [h.1, ih ds h.2]
      · simp only [List.cons_append, List.nil_append, List.cons.injEq] at h
        exact absurd (.inr h.1.symm) hd
      · simp only [List.cons_append, List.nil_append, List.cons.injEq] at h
        exact absurd (.inr h.1) hc
      · simp only [List.cons_append, List.nil_append, List.cons.injEq] at h
        rw [h.1, ih ds h.2]

theorem plainFormat_faithful : plainFormat.Faithful where
  quote_inj s t h := by
    have hlist := String.ofList_inj.mp h
    simp only [List.cons.injEq, true_and, List.append_cancel_right_eq] at hlist
    exact String.toList_inj.mp (escaped_injective _ _ hlist)
  quoted s := ⟨_, String.toList_ofList, closed_escaped s.toList⟩
  duration_inj d e h := Int64.toInt_inj.mp (Config.repr_injective h)
  digest_inj _ _ h := h

def mainConfig : Config where
  addr := "ch:9000"
  database := "audit\" user=\"root"
  username := "writer"
  password := ""
  dialTimeout := 5000000000
  readTimeout := 10000000000
  autoCreateSchema := false
  batchMaxRows := 1000
  batchMaxWait := 1000000000
  writeQueueSize := 5000
  writeWorkers := 4
  enqueueTimeout := 2000000000
  shutdownDrainTimeout := 15000000000
  checkpointEvery := 50

def mainSteps : List (SinkStep Config) :=
  [.start fun _ => .ok (), .ensure "main" (some mainConfig) (.ok ())]

def emptyStarted : SinkManager Config := { started := true }

theorem mainSteps_run (lib : SinkLib Config) :
    Runs.Run (SinkManager.step lib) (fun _ _ => True) {} mainSteps
    (emptyStarted.ensureLocked lib "main" mainConfig (.ok ())).2 :=
  .snoc (.snoc .nil trivial (u := emptyStarted) rfl) trivial rfl

theorem unchanged_sink_idles : plainFormat.Faithful ∧ ∃ m : SinkManager Config,
    Runs.Run (SinkManager.step (sinkLib plainFormat)) (fun _ _ => True) {} mainSteps m ∧
    ∀ cfg factory, m.Idles (sinkLib plainFormat) "main" cfg factory ↔ cfg = mainConfig := by
  have hrun := mainSteps_run (sinkLib plainFormat)
  refine ⟨plainFormat_faithful, _, hrun, ?_⟩
  obtain ⟨running, ⟨factory, hmem⟩, -, hidles⟩ :=
    (recycled_iff_changed plainFormat plainFormat_faithful hrun).2 "main" _
      (by simp [emptyStarted, SinkManager.ensureLocked, SinkManager.swapLocked]; rfl)
  have hmain : running = mainConfig ∧ factory = .ok () := by simpa [mainSteps] using hmem
  rw [hmain.1] at hidles
  exact hidles

end ClickHouse

end Kuberecord
