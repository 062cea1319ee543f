import Kuberecord.Reader
import Kuberecord.LostWrites

/-!
One key on its own: the worker's phase, its cache slot and its writes that have not failed. Each of
these writes was planned over the entry the one before it left, so their rows read as a chain of
documents.
-/

namespace Kuberecord

structure Write where
  record : Record
  ticket : Ticket
  confirmed : CacheEntry
  revertEntry : Option CacheEntry

structure Cell where
  phase : Phase
  slot : Slot
  writes : List Write
  clock : Nat

def Cell.rows (c : Cell) : List Record := c.writes.map Write.record

inductive Cell.Step (cfg : Config) (key : Key) (uid : String) (st : Inst) (k : String)
    (c : Cell) : Cell → Prop
  | wait (ts : Nat) : c.clock ≤ ts → Step cfg key uid st k c { c with clock := ts }
  | drop (base : Option CacheEntry) : c.phase = .loaded st k base →
      Step cfg key uid st k c { c with phase := .idle }
  | load : c.phase = .idle → Step cfg key uid st k c { c with phase := .loaded st k c.slot.entry }
  | reserve (base : Option CacheEntry) (e : CacheEntry) : c.phase = .loaded st k base → e.uid = uid →
      Step cfg key uid st k c
        { c with phase := .reserved st k base e (c.slot.reserve e).2 none, slot := (c.slot.reserve e).1 }
  | date (base : Option CacheEntry) (e : CacheEntry) (t : Ticket) (ts : Nat) :
      c.phase = .reserved st k base e t none → c.clock < ts →
      Step cfg key uid st k c { c with phase := .reserved st k base e t (some ts), clock := ts }
  | issue (base : Option CacheEntry) (obj : Json) (policy : Option RedactionPolicy)
      (norm : NormalizedObject) (plan : Plan) (t : Ticket) (ts : Nat) :
      normalizeObject cfg.lib obj policy = some norm →
      norm.uid = uid →
      Planned cfg.lib key.ephemeral norm base plan →
      c.phase = .reserved st k base (confirmedEntry cfg.lib key.ephemeral norm plan) t (some ts) →
      Step cfg key uid st k c
        { c with
          phase := .idle
          writes := c.writes ++ [⟨upsertRecord cfg.clusterID key norm plan ts, t,
            confirmedEntry cfg.lib key.ephemeral norm plan, plan.revertEntry⟩] }
  | refuse (base : Option CacheEntry) (norm : NormalizedObject) (plan : Plan) (t : Ticket) (ts : Nat) :
      norm.uid = uid → Planned cfg.lib key.ephemeral norm base plan →
      c.phase = .reserved st k base (confirmedEntry cfg.lib key.ephemeral norm plan) t (some ts) →
      Step cfg key uid st k c
        { c with phase := .reverting st k (confirmedEntry cfg.lib key.ephemeral norm plan) t plan.revertEntry }
  | revert (e : CacheEntry) (t : Ticket) (r : Option CacheEntry) : c.phase = .reverting st k e t r →
      c.slot.Issued t → Step cfg key uid st k c { c with phase := .idle, slot := c.slot.fallBack t r }
  | commit (x : Write) : x ∈ c.writes → c.slot.Issued x.ticket →
      Step cfg key uid st k c { c with slot := (c.slot.commitIfCurrent x.ticket.version x.confirmed).1 }
  | lapse (before after : List Write) (x : Write) : c.writes = before ++ x :: after →
      c.slot.Issued x.ticket →
      c.slot.installs = x.ticket.issue → c.phase.read = none →
      Step cfg key uid st k c
        { c with slot := c.slot.fallBack x.ticket x.revertEntry, writes := before ++ after }

def Cell.Settled (lib : Lib) (apply : Bytes → Bytes → Option Bytes) (uid : String) (c : Cell) :
    Phase → Prop
  | .idle => Mirrors lib apply c.rows c.slot.entry
  | .loaded _ _ base =>
    Mirrors lib apply c.rows c.slot.entry ∧ Mirrors lib apply c.rows base ∧ ∀ e ∈ base, e.uid = uid
  | .reserved _ _ base e t ts =>
    Mirrors lib apply c.rows base ∧ (∀ e ∈ base, e.uid = uid) ∧ c.slot.installs = t.issue ∧
      c.slot.entry = some { e with version := t.version } ∧ (∀ x ∈ c.writes, x.ticket.issue < t.issue) ∧
      ∀ n, ts = some n → n ≤ c.clock ∧ ∀ r ∈ c.rows, r.timestamp < n
  | .reverting _ _ e t r =>
    Mirrors lib apply c.rows r ∧ (∀ e ∈ r, e.uid = uid) ∧ c.slot.installs = t.issue ∧
      c.slot.entry = some { e with version := t.version } ∧ ∀ x ∈ c.writes, x.ticket.issue < t.issue
  | _ => False

structure Cell.Chained (lib : Lib) (apply : Bytes → Bytes →
    Option Bytes) (uid : String) (c : Cell) : Prop where
  readable : Readable lib apply c.rows
  ordered : c.rows.Pairwise (fun r r' => r.timestamp < r'.timestamp)
  dated : ∀ r ∈ c.rows, r.timestamp ≤ c.clock
  issues : c.writes.Pairwise (fun x y => x.ticket.issue < y.ticket.issue)
  bounded : ∀ x ∈ c.writes, c.slot.base ≤ x.ticket.issue ∧ x.ticket.issue ≤ c.slot.installs
  gated : c.slot.Gated
  owned : (∀ e ∈ c.slot.entry, e.uid = uid) ∧
    ∀ x ∈ c.writes, x.confirmed.uid = uid ∧ ∀ e ∈ x.revertEntry, e.uid = uid
  -- the latest install mirrors all the rows, and falls back to an entry that mirrors those before it
  latest : ∀ before x, c.writes = before ++ [x] → x.ticket.issue = c.slot.installs →
    Mirrors lib apply c.rows (some x.confirmed) ∧
    Mirrors lib apply (before.map Write.record) x.revertEntry
  settled : c.Settled lib apply uid c.phase

section

variable {lib : Lib} {apply : Bytes → Bytes → Option Bytes} {uid : String} {rows : List Record}
  {s : Slot} {t : Ticket}
  {r : Option CacheEntry} {c c' : Cell} {before after : List Write} {x : Write}

theorem Mirrors.withVersion (h : Mirrors lib apply rows r) (v : Nat) :
    Mirrors lib apply rows (r.map (fun e => { e with version := v })) := by
  cases r with
  | none | some => exact h

theorem Slot.Gated.fallBack (h : s.Gated) (hv : t.version ≠ 0) : (s.fallBack t r).Gated := by
  cases r with
  | none => exact h.deleteIfCurrent
  | some e => exact h.commitIfCurrent hv

theorem Slot.Issued.fallBack_eq (h : s.Issued t) (hg : s.Gated) (hi : s.installs = t.issue)
    (hs : s.entry.isSome) :
    s.fallBack t r = { s with entry := r.map (fun e => { e with version := t.version }) } := by
  have hc := h.current hg hi.symm hs
  cases r with
  | none => rw [Slot.fallBack, Slot.deleteIfCurrent_current hc]; rfl
  | some e => rw [Slot.fallBack, Slot.commitIfCurrent_current hc]; rfl

namespace Cell

variable {st : Inst} {k : String} {base : Option CacheEntry}

theorem Chained.latest_last (h : c.Chained lib apply uid) (hw : c.writes = before ++ x :: after)
    (hi : c.slot.installs = x.ticket.issue) : after = [] := by
  refine List.eq_nil_iff_forall_not_mem.mpr fun y hy => ?_
  have hp := (List.pairwise_append.mp (hw ▸ h.issues)).2.1
  have hlt := (List.pairwise_cons.mp hp).1 y hy
  have hle := (h.bounded y (hw ▸ by simp [hy])).2
  omega

theorem entry_isSome (hx : x ∈ c.writes) (hm : Mirrors lib apply c.rows c.slot.entry) :
    c.slot.entry.isSome := by
  cases he : c.slot.entry with
  | some e => rfl
  | none =>
    rw [he] at hm
    have hr : x.record ∈ c.rows := List.mem_map_of_mem hx
    rw [show c.rows = [] from hm] at hr
    cases hr

theorem Chained.wait (h : c.Chained lib apply uid) {ts : Nat} (hts : c.clock ≤ ts) :
    Chained lib apply uid { c with clock := ts } := by
  refine { h with dated := fun r hr => Nat.le_trans (h.dated r hr) hts, settled := ?_ }
  have hs := h.settled
  change Settled lib apply uid { c with clock := ts } c.phase
  cases hp : c.phase with rw [hp] at hs
  | reserved st k base e t d =>
    obtain ⟨hm, hu, hi, he, hw, hd⟩ := hs
    exact ⟨hm, hu, hi, he, hw, fun n hn => ⟨Nat.le_trans (hd n hn).1 hts, (hd n hn).2⟩⟩
  | _ => exact hs

theorem Chained.agrees (h : c.Chained lib apply uid) {p : Phase} (hp : c.phase = p) :
    c.Settled lib apply uid p :=
  hp ▸ h.settled

theorem Chained.loaded (h : c.Chained lib apply uid) (hp : c.phase = .idle) :
    Chained lib apply uid { c with phase := .loaded st k c.slot.entry } :=
  { h with settled := ⟨h.agrees hp, h.agrees hp, h.owned.1⟩ }

theorem Chained.reserved (h : c.Chained lib apply uid)
    {e : CacheEntry} (hp : c.phase = .loaded st k base) (he : e.uid = uid) :
    Chained lib apply uid
      { c with phase := .reserved st k base e (c.slot.reserve e).2 none, slot := (c.slot.reserve e).1 } := by
  obtain ⟨hm, hb, hu⟩ := h.agrees hp
  refine { h with bounded := ?_, gated := h.gated.reserve, owned := ⟨?_, h.owned.2⟩, latest := ?_, settled := ?_ }
  · intro x hx
    have hle := h.bounded x hx
    have hsome : c.slot.entry.isSome := entry_isSome hx hm
    simp only [Slot.reserve, Slot.install, hsome, ↓reduceIte]
    exact ⟨hle.1, Nat.le_succ_of_le hle.2⟩
  · rintro _ ⟨⟩
    exact he
  · intro before x hw hi
    have hx : x ∈ c.writes := by
      rw [show c.writes = before ++ [x] from hw]
      simp
    have hle := (h.bounded x hx).2
    change x.ticket.issue = c.slot.installs + 1 at hi
    omega
  · refine ⟨hb, hu, rfl, rfl, fun x hx => Nat.lt_succ_of_le (h.bounded x hx).2, ?_⟩
    rintro n ⟨⟩

theorem Chained.dated_phase (h : c.Chained lib apply uid)
    {e : CacheEntry} {ts : Nat} (hp : c.phase = .reserved st k base e t none) (hts : c.clock < ts) :
    Chained lib apply uid { c with phase := .reserved st k base e t (some ts), clock := ts } := by
  have hw := h.wait (Nat.le_of_lt hts)
  obtain ⟨hm, hu, hi, he, hl, -⟩ := h.agrees hp
  refine { hw with settled := ⟨hm, hu, hi, he, hl, ?_⟩ }
  rintro n ⟨⟩
  exact ⟨Nat.le_refl _, fun r hr => Nat.lt_of_le_of_lt (h.dated r hr) hts⟩

theorem Chained.issued (h : c.Chained lib apply uid) (hl : lib.Lawful apply) {key : Key}
    {obj : Json} {policy : Option RedactionPolicy} {norm : NormalizedObject} {plan : Plan}
    {ts : Nat} {clusterID : String} (hn : normalizeObject lib obj policy = some norm)
    (hnu : norm.uid = uid) (hpl : Planned lib key.ephemeral norm base plan)
    (hp : c.phase = .reserved st k base (confirmedEntry lib key.ephemeral norm plan) t (some ts))
    (hx : x = ⟨upsertRecord clusterID key norm plan ts, t, confirmedEntry lib key.ephemeral norm plan,
      plan.revertEntry⟩) : Chained lib apply uid
        { c with phase := .idle, writes := c.writes ++ [x] } := by
  obtain ⟨hm, hu, hi, he, hlt, hd⟩ := h.agrees hp
  obtain ⟨hts, hrow⟩ := hd ts rfl
  obtain ⟨hfol, hrep⟩ := upsertRecord_replay hl hn hpl hm clusterID key ts
  have hrev : plan.revertEntry = base := hpl.revertEntry_eq (fun e he => (hu e he).trans hnu.symm)
  have hrows : (c.writes ++ [x]).map Write.record = c.rows ++ [x.record] := by simp [Cell.rows]
  have hconf : Mirrors lib apply (c.rows ++ [x.record]) (some x.confirmed) := by
    rw [hx]
    exact ⟨norm.json, hrep, confirmedEntry_holds hl⟩
  have hrec : x.record.timestamp = ts ∧ x.ticket = t ∧ x.confirmed.uid = uid ∧ x.revertEntry = base ∧
      x.confirmed = confirmedEntry lib key.ephemeral norm plan := by
    rw [hx]
    exact ⟨rfl, rfl, hnu, hrev, rfl⟩
  obtain ⟨hxts, hxt, hxu, hxr, hxc⟩ := hrec
  constructor
  · rw [Cell.rows, hrows]
    exact h.readable.snoc (hx ▸ hfol)
  · rw [Cell.rows, hrows]
    exact List.pairwise_append.mpr ⟨h.ordered, List.pairwise_singleton _ _, by simpa [hxts] using hrow⟩
  · rw [Cell.rows, hrows]
    exact List.forall_mem_append.mpr ⟨h.dated, by simpa [hxts] using hts⟩
  · exact List.pairwise_append.mpr ⟨h.issues, List.pairwise_singleton _ _, by simpa [hxt] using hlt⟩
  · refine List.forall_mem_append.mpr ⟨h.bounded, List.forall_mem_singleton.mpr ?_⟩
    rw [hxt, ← hi]
    exact ⟨h.gated.base_le, Nat.le_refl _⟩
  · exact h.gated
  · exact ⟨h.owned.1, List.forall_mem_append.mpr ⟨h.owned.2,
      List.forall_mem_singleton.mpr ⟨hxu, hxr ▸ hu⟩⟩⟩
  · intro before y hw _
    obtain ⟨rfl, hy⟩ := List.append_inj' hw rfl
    cases hy
    rw [Cell.rows, hrows, hxr]
    exact ⟨hconf, hm⟩
  · change Mirrors lib apply ((c.writes ++ [x]).map Write.record) c.slot.entry
    rw [hrows, he, ← hxc]
    exact hconf

theorem Chained.refused (h : c.Chained lib apply uid) {ephemeral : Bool}
    {e : CacheEntry} {norm : NormalizedObject} {plan : Plan} {d : Option Nat}
    (hnu : norm.uid = uid) (hpl : Planned lib ephemeral norm base plan)
    (hp : c.phase = .reserved st k base e t d) :
    Chained lib apply uid { c with phase := .reverting st k e t plan.revertEntry } := by
  obtain ⟨hm, hu, hi, he, hlt, -⟩ := h.agrees hp
  have hrev : plan.revertEntry = base := hpl.revertEntry_eq (fun e he => (hu e he).trans hnu.symm)
  exact { h with settled := ⟨hrev ▸ hm, hrev ▸ hu, hi, he, hlt⟩ }

theorem Chained.fellBack (h : c.Chained lib apply uid) (hi : c.slot.Issued t)
    (hlast : c.slot.installs = t.issue) (hsome : c.slot.entry.isSome)
    (hw : ∃ after, c.writes = before ++ after) (hlt : ∀ x ∈ before, x.ticket.issue < t.issue)
    (hm : Mirrors lib apply (before.map Write.record) r) (hu : ∀ e ∈ r, e.uid = uid) :
    Chained lib apply uid { c with phase := .idle, slot := c.slot.fallBack t r, writes := before } := by
  obtain ⟨after, hw⟩ := hw
  have hsub : ∀ x ∈ before, x ∈ c.writes := fun x hx => hw ▸ List.mem_append_left _ hx
  have hrows : c.rows = before.map Write.record ++ after.map Write.record :=
    by rw [Cell.rows, hw, List.map_append]
  have hgated := h.gated.fallBack hi.version_pos (r := r)
  rw [hi.fallBack_eq h.gated hlast hsome] at hgated ⊢
  constructor
  · exact (hrows ▸ h.readable).of_append
  · exact (List.pairwise_append.mp (hrows ▸ h.ordered)).1
  · exact fun r hr => h.dated r (hrows ▸ List.mem_append_left _ hr)
  · exact (List.pairwise_append.mp (hw ▸ h.issues)).1
  · exact fun x hx => h.bounded x (hsub x hx)
  · exact hgated
  · refine ⟨?_, fun x hx => h.owned.2 x (hsub x hx)⟩
    intro e he
    obtain ⟨e', he', rfl⟩ := Option.map_eq_some_iff.mp he
    exact hu e' he'
  · intro before' x hb hix
    have hx : x ∈ before := by
      rw [show before = before' ++ [x] from hb]
      simp
    have hxlt := hlt x hx
    change x.ticket.issue = c.slot.installs at hix
    omega
  · exact hm.withVersion t.version

theorem Chained.committed (h : c.Chained lib apply uid) (hx : x ∈ c.writes) (hi : c.slot.Issued x.ticket) :
    Chained lib apply uid { c with slot := (c.slot.commitIfCurrent x.ticket.version x.confirmed).1 } := by
  by_cases hc : c.slot.Current x.ticket.version
  · have hlast := (hi.issue_eq h.gated (h.bounded x hx).1 hc).symm
    obtain ⟨before, after, hw⟩ := List.append_of_mem hx
    obtain rfl := h.latest_last hw hlast
    have hgated := h.gated.commitIfCurrent hi.version_pos (e := x.confirmed)
    have hm := (h.latest before x hw hlast.symm).1
    rw [Slot.commitIfCurrent_current hc] at hgated ⊢
    refine { h with gated := hgated, owned := ⟨?_, h.owned.2⟩, settled := ?_ }
    · rintro _ ⟨⟩
      exact (h.owned.2 x hx).1
    · have hs := h.settled
      change Settled lib apply uid { c with slot := _ } c.phase
      cases hp : c.phase with rw [hp] at hs
      | idle => exact hm
      | loaded st k base => exact ⟨hm, hs.2⟩
      | reserved st k base e t d =>
        exact absurd (hs.2.2.2.2.1 x hx) (by rw [← hs.2.2.1, hlast]; exact Nat.lt_irrefl _)
      | reverting st k e t r =>
        exact absurd (hs.2.2.2.2 x hx) (by rw [← hs.2.2.1, hlast]; exact Nat.lt_irrefl _)
      | _ => exact hs
  · rw [Slot.commitIfCurrent_stale hc hi.version_pos]
    exact h

theorem Chained.lapsed (h : c.Chained lib apply uid) (hw : c.writes = before ++ x :: after)
    (hi : c.slot.Issued x.ticket) (hlast : c.slot.installs = x.ticket.issue) (hr : c.phase.read = none) :
    Chained lib apply uid { c with slot := c.slot.fallBack x.ticket x.revertEntry, writes := before ++ after } := by
  obtain rfl := h.latest_last hw hlast
  rw [List.append_nil]
  have hx : x ∈ c.writes := by simp [hw]
  have hlt : ∀ y ∈ before, y.ticket.issue < x.ticket.issue := fun y hy =>
    (List.pairwise_append.mp (hw ▸ h.issues)).2.2 y hy x (by simp)
  have hm := (h.latest before x hw hlast.symm).2
  have fell (hs : Mirrors lib apply c.rows c.slot.entry) :=
    h.fellBack hi hlast (entry_isSome hx hs) ⟨_, hw⟩ hlt hm (h.owned.2 x hx).2
  have hs := h.settled
  cases hp : c.phase with rw [hp] at hs hr
  | idle => exact hp ▸ fell hs
  | loaded st k base =>
    cases base with
    | none =>
      have hr : x.record ∈ c.rows := List.mem_map_of_mem hx
      rw [show c.rows = [] from hs.2.1] at hr
      cases hr
    | some e => cases hr
  | reserved st k base e t d =>
    exact absurd (hs.2.2.2.2.1 x hx) (by rw [← hs.2.2.1, hlast]; exact Nat.lt_irrefl _)
  | reverting st k e t r =>
    exact absurd (hs.2.2.2.2 x hx) (by rw [← hs.2.2.1, hlast]; exact Nat.lt_irrefl _)
  | _ => exact hs.elim

theorem Chained.step {cfg : Config} {key : Key} (hl : cfg.lib.Lawful apply)
    (h : c.Chained cfg.lib apply uid) (hs : Step cfg key uid st k c c') :
    c'.Chained cfg.lib apply uid := by
  cases hs with
  | wait ts hts => exact h.wait hts
  | drop base hp => exact { h with settled := (h.agrees hp).1 }
  | load hp => exact h.loaded hp
  | reserve base e hp he => exact h.reserved hp he
  | date base e t ts hp hts => exact h.dated_phase hp hts
  | issue base obj policy norm plan t ts hn hnu hpl hp => exact h.issued hl hn hnu hpl hp rfl
  | refuse base norm plan t ts hnu hpl hp => exact h.refused hnu hpl hp
  | revert e t r hp hi =>
    obtain ⟨hm, hu, hlast, he, hlt⟩ := h.agrees hp
    exact h.fellBack hi hlast (by simp [he]) ⟨[], by simp⟩ hlt hm hu
  | commit x hx hi => exact h.committed hx hi
  | lapse before after x hw hi hlast hr => exact h.lapsed hw hi hlast hr

end Cell

end

end Kuberecord
