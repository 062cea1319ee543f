import Kuberecord.Rows

namespace Kuberecord

def Phase.stamp : Phase → Option Nat
  | .claimed _ _ _ _ ts | .reserved _ _ _ _ _ ts => ts
  | _ => none

@[simp]
theorem Phase.stamp_outsOf (st : Inst) (k : String) (rs : List Record) :
    (Phase.outsOf st k rs).stamp = none := by
  cases rs <;> rfl

namespace World

variable {w w' : World} {cfg : Config} {d : Deed} {tid : Tid} {ts : Nat} {sink : String} {r : Record}

def Ticking (w : World) : Action → Prop
  | .exec _ (.time ts) => w.shared.clock < ts
  | _ => True

instance (w : World) (a : Action) : Decidable (w.Ticking a) := by
  unfold Ticking
  split <;> infer_instance

theorem stamp_set {u : Tid} {p : Phase} (hw : w'.phase = Function.update w.phase u p)
    (hp : p.stamp = none) (h : (w'.phase tid).stamp = some ts) :
    (w.phase tid).stamp = some ts := by
  rw [hw] at h
  by_cases hu : tid = u
  · subst hu
    rw [Function.update_self, hp] at h
    cases h
  · rwa [Function.update_of_ne hu] at h

theorem stamp_date {u : Tid} {p : Phase} {ts' : Nat} {s' : Shared} (hp : p.stamp = some ts')
    (hs : s'.clock = ts') (h : ((w.set u p s').phase tid).stamp = some ts) :
    (w.phase tid).stamp = some ts ∨
      Threads.Action.exec u (Input.time ts') = (Threads.Action.exec tid (.time ts) : Action) ∧
        s'.clock = ts := by
  by_cases hu : tid = u
  · subst hu
    rw [set_phase_self, hp] at h
    cases h
    exact .inr ⟨rfl, hs⟩
  · rw [set_phase_of_ne hu] at h
    exact .inl h

theorem stamp_turn (ht : Turn cfg w d w') (h : (w'.phase tid).stamp = some ts) :
    (w.phase tid).stamp = some ts ∨ d.plain = .exec tid (.time ts) ∧ w'.shared.clock = ts := by
  cases ht with
  | still _ w' hp => exact .inl (hp ▸ h)
  | date u st k base entry tk ts' hp =>
    exact stamp_date (p := .reserved st k base entry tk (some ts')) rfl rfl h
  | dateClaim u st k e tk ts' hp => exact stamp_date (p := .claimed st k e tk (some ts')) rfl rfl h
  | crash => cases h
  | takeAll | resubmit | reshelve => exact .inl (stamp_set rfl (Phase.stamp_outsOf ..) h)
  | drop | claim | supersede | recoverRefused | load | reserve | issue | refuse | revert
  | retract | forget | emit | emitRefused | release | outrun | dateClose | close | shelve =>
    exact .inl (stamp_set rfl rfl h)
  | _ => exact .inl h

theorem clock_turn (hok : w.Ticking d.plain) (ht : Turn cfg w d w') :
    w.shared.clock ≤ w'.shared.clock := by
  cases ht with
  | still _ _ _ hs | drop _ _ _ _ _ _ hs | refuse _ _ _ _ _ _ _ _ _ _ _ _ hs
  | emitRefused _ _ _ _ _ _ _ _ hs | outrun _ _ _ _ _ _ _ _ _ _ _ hs
  | recoverRefused _ _ _ _ _ _ _ _ _ _ _ hs => exact Nat.le_of_eq hs.clock.symm
  | tick | date | dateClaim | dateClose => exact Nat.le_of_lt hok
  | settle => exact Nat.le_of_eq (Shared.settled_clock ..).symm
  | _ => exact Nat.le_refl _

theorem recovered_turn (ht : Turn cfg w d w') (x : String × Record) (hx : x ∈ w.recovered) :
    x ∈ w'.recovered := by
  cases ht with
  | still _ _ _ _ _ hr => exact hr ▸ hx
  | recover | recoverRefused => exact List.mem_append_left _ hx
  | _ => exact hx

def Stamps (w : World) (sink : String) (r : Record) : Prop := w.Has sink r ∧ (sink, r) ∉ w.recovered

structure Stamped (w : World) : Prop where
  past : ∀ sink r, w.Stamps sink r → r.timestamp ≤ w.shared.clock
  pending : ∀ tid ts, (w.phase tid).stamp = some ts → ts ≤ w.shared.clock
  apart : ∀ tid ts, (w.phase tid).stamp = some ts → ∀ sink r, w.Stamps sink r → r.timestamp ≠ ts
  single : ∀ tid tid' ts, (w.phase tid).stamp = some ts → (w.phase tid').stamp = some ts → tid = tid'
  unique : ∀ sink r sink' r', w.Stamps sink r → w.Stamps sink' r' → r.timestamp = r'.timestamp →
    sink = sink' ∧ r = r'

inductive Dated (w w' : World) (a : Action) (r : Record) : Prop
  | held (tid : Tid) : (w.phase tid).stamp = some r.timestamp → (w'.phase tid).stamp = none →
      Dated w w' a r
  | read (tid : Tid) : a = .exec tid (.time r.timestamp) → w'.shared.clock = r.timestamp →
      (w'.phase tid).stamp = none → Dated w w' a r

theorem Born.dated {a : Action} (hb : w.Born cfg w' a sink r) (hr : (sink, r) ∉ w'.recovered) :
    w.Dated w' a r := by
  cases hb with
  | upsert key st k base e t ts norm plan hp hw =>
    exact .held (.worker key) (by rw [hp]; rfl) (by simp [hw, Phase.stamp])
  | delete tid key st k e t ts hp hw => exact .held tid (by rw [hp]; rfl) (by simp [hw, Phase.stamp])
  | close key st k base e ts hp hc hw => exact .read (.worker key) rfl hc (by simp [hw, Phase.stamp])
  | recover tid key x b hx hm => exact absurd hm hr

theorem stamps_turn (h : w.Sound cfg) (ht : Turn cfg w d w') :
    ∃ r₀ : Option (String × Record), (∀ x ∈ r₀, w.Dated w' d.plain x.2) ∧
      ∀ sink r, w'.Stamps sink r → w.Stamps sink r ∨ r₀ = some (sink, r) := by
  have old {sink : String} {r : Record} (hr : (sink, r) ∉ w'.recovered) : (sink, r) ∉ w.recovered :=
    fun hm => hr (recovered_turn ht _ hm)
  rcases births h ht with hb | ⟨sink₀, r₀, hb, hn⟩
  · exact ⟨none, by simp, fun sink r hs => .inl ⟨hb sink r hs.1, old hs.2⟩⟩
  · by_cases hr : (sink₀, r₀) ∈ w'.recovered
    · refine ⟨none, by simp, fun sink r hs => ?_⟩
      rcases hn sink r hs.1 with hh | ⟨rfl, rfl⟩
      · exact .inl ⟨hh, old hs.2⟩
      · exact absurd hr hs.2
    · refine ⟨some (sink₀, r₀), by simpa using hb.dated hr, fun sink r hs => ?_⟩
      rcases hn sink r hs.1 with hh | ⟨rfl, rfl⟩
      · exact .inl ⟨hh, old hs.2⟩
      · exact .inr rfl

theorem Stamped.turn (h : w.Stamped) (hsound : w.Sound cfg) (hok : w.Ticking d.plain)
    (ht : Turn cfg w d w') : w'.Stamped := by
  have hclock := clock_turn hok ht
  obtain ⟨r₀, hdated, hnew⟩ := stamps_turn hsound ht
  have late {tid : Tid} {ts : Nat} (ha : d.plain = .exec tid (.time ts)) : w.shared.clock < ts := by
    rw [ha] at hok
    exact hok
  -- a row made by this step carries a time no row before it has
  have fresh {r : Record} (hd : w.Dated w' d.plain r) (sink' : String) (r' : Record)
    (hs : w.Stamps sink' r') :
      r'.timestamp ≠ r.timestamp := by
    cases hd with
    | held tid hp => exact h.apart tid _ hp sink' r' hs
    | read tid ha => exact Nat.ne_of_lt (Nat.lt_of_le_of_lt (h.past _ _ hs) (late ha))
  have bound {r : Record} (hd : w.Dated w' d.plain r) : r.timestamp ≤ w'.shared.clock := by
    cases hd with
    | held tid hp => exact Nat.le_trans (h.pending tid _ hp) hclock
    | read tid ha hc => exact Nat.le_of_eq hc.symm
  constructor
  · intro sink r hs
    rcases hnew sink r hs with hs | rfl
    · exact Nat.le_trans (h.past _ _ hs) hclock
    · exact bound (hdated _ rfl)
  · intro tid ts hp
    rcases stamp_turn ht hp with hp | ⟨-, hc⟩
    · exact Nat.le_trans (h.pending tid ts hp) hclock
    · exact Nat.le_of_eq hc.symm
  · intro tid ts hp sink r hs he
    subst he
    rcases stamp_turn ht hp with hp' | ⟨ha, -⟩
    · rcases hnew sink r hs with hs | rfl
      · exact h.apart tid _ hp' sink r hs rfl
      · cases hdated _ rfl with
        | held u hu hn =>
          obtain rfl := h.single _ _ _ hu hp'
          rw [hn] at hp
          cases hp
        | read u ha => exact absurd (h.pending tid _ hp') (Nat.not_le.mpr (late ha))
    · rcases hnew sink r hs with hs | rfl
      · exact absurd (h.past _ _ hs) (Nat.not_le.mpr (late ha))
      · cases hdated _ rfl with
        | held u hu => exact absurd (h.pending u _ hu) (Nat.not_le.mpr (late ha))
        | read u hu _ hn =>
          cases hu.symm.trans ha
          rw [hn] at hp
          cases hp
  · intro tid tid' ts hp hp'
    rcases stamp_turn ht hp with hq | ⟨ha, -⟩ <;> rcases stamp_turn ht hp' with hq' | ⟨ha', -⟩
    · exact h.single _ _ _ hq hq'
    · exact absurd (h.pending _ _ hq) (Nat.not_le.mpr (late ha'))
    · exact absurd (h.pending _ _ hq') (Nat.not_le.mpr (late ha))
    · cases ha.symm.trans ha'
      rfl
  · intro sink r sink' r' hs hs' he
    rcases hnew sink r hs with hs | hr <;> rcases hnew sink' r' hs' with hs' | hr'
    · exact h.unique _ _ _ _ hs hs' he
    · exact absurd he (fresh (hdated _ hr') sink r hs)
    · exact absurd he.symm (fresh (hdated _ hr) sink' r' hs')
    · cases hr.symm.trans hr'
      exact ⟨rfl, rfl⟩

theorem Stamped.empty : Stamped {} := by
  have none {sink : String} {r : Record} : ¬ Stamps {} sink r := by
    rintro ⟨⟨h, hm, -⟩ | ⟨st, k, -, hr⟩ | ⟨tid, st, k, -, hc⟩, -⟩
    · cases hm
    · cases hr
    · cases hc
  exact ⟨fun _ _ hs => absurd hs none,
    by simp [Phase.stamp], by simp [Phase.stamp], by simp [Phase.stamp],
    fun _ _ _ _ hs => absurd hs none⟩

end World

end Kuberecord
