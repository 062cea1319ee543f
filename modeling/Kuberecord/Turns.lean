import Kuberecord.World

namespace Kuberecord

open Threads

variable {cfg : Config} {v v' : View Op.Ans Tid Shared Hand} {d : Deed} {t : Tid} {h h' : Hand}
  {s' : Shared}

theorem after_owner (t : Tid) (tr : List (Sigma Op.Ans)) :
    ((custody cfg).after (Hand.start t) tr).owner = t :=
  Protocol.after_induction _ (I := fun h : Hand => h.owner = t) rfl (fun _ _ _ h => h)

theorem Hand.nextPhase_quiet {o : Op} (ho : o.Quiet) (x : o.Ans) : h.nextPhase cfg o x = h.phase := by
  cases o <;> first | rfl | exact absurd ho id

theorem Hand.nextSeen_quiet {o : Op} (ho : o.Quiet) (x : o.Ans) : h.nextSeen o x = h.seen := by
  cases o <;> first | rfl | exact absurd ho id

theorem claimOf_quiet {o : Op} (ho : o.Quiet) (x : o.Ans) (tr : List (Sigma Op.Ans)) :
    claimOf ⟨t, tr, ⟨o, x⟩⟩ = none := by
  cases o <;> first | rfl | exact absurd ho id

section

variable (hp : v.phase t = some h) {o : Op} {x : o.Ans} (tr : List (Sigma Op.Ans))
include hp

theorem viewWorld_next (s' : Shared) :
    viewWorld ⟨Function.update v.phase t (some (h.next cfg o x)), s', v.log ++ [⟨t, tr, ⟨o, x⟩⟩]⟩ =
      { phase := Function.update (viewWorld v).phase t (h.nextPhase cfg o x)
        seen := Function.update (viewWorld v).seen t (h.nextSeen o x)
        shared := s'
        claims := (viewWorld v).claims ++ (claimOf ⟨t, tr, ⟨o, x⟩⟩).toList
        recovered := (viewWorld v).recovered ++ (recoveredOf ⟨t, tr, ⟨o, x⟩⟩).toList } := by
  simp only [viewWorld, List.filterMap_append, World.mk.injEq]
  refine ⟨?_, ?_, trivial, ?_, ?_⟩
  · funext u
    by_cases hu : u = t
    · subst hu; simp [Hand.next]
    · simp [Function.update_of_ne hu]
  · funext u
    by_cases hu : u = t
    · subst hu; simp [Hand.next]
    · simp [Function.update_of_ne hu]
  · cases hc : claimOf ⟨t, tr, ⟨o, x⟩⟩ <;> simp [hc]
  · cases hc : recoveredOf ⟨t, tr, ⟨o, x⟩⟩ <;> simp [hc]

theorem viewWorld_learn (hn : h.nextPhase cfg o x = h.phase) (hc : claimOf ⟨t, tr, ⟨o, x⟩⟩ = none)
    (hr : recoveredOf ⟨t, tr, ⟨o, x⟩⟩ = none) :
    viewWorld ⟨Function.update v.phase t (some (h.next cfg o x)), v.shared, v.log ++ [⟨t, tr, ⟨o, x⟩⟩]⟩ =
      (viewWorld v).learn t (h.nextSeen o x) := by
  have hph : h.nextPhase cfg o x = (viewWorld v).phase t := by simp [viewWorld, hp, hn]
  rw [viewWorld_next hp, hc, hr, hph, Function.update_eq_self]
  simp [World.learn, viewWorld]

theorem viewWorld_claim {p : Phase} (s' : Shared) (hn : h.nextPhase cfg o x = p)
    (hseen : h.nextSeen o x = h.seen) (hr : recoveredOf ⟨t, tr, ⟨o, x⟩⟩ = none) :
    viewWorld ⟨Function.update v.phase t (some (h.next cfg o x)), s', v.log ++ [⟨t, tr, ⟨o, x⟩⟩]⟩ =
      { (viewWorld v).set t p s' with claims := (viewWorld v).claims ++ (claimOf ⟨t, tr,
          ⟨o, x⟩⟩).toList } := by
  have hs : h.nextSeen o x = (viewWorld v).seen t := by simp [viewWorld, hp, hseen]
  rw [viewWorld_next hp, hr, hs, hn, Function.update_eq_self]
  simp [World.set]

theorem viewWorld_set {p : Phase} (s' : Shared) (hn : h.nextPhase cfg o x = p)
    (hseen : h.nextSeen o x = h.seen) (hc : claimOf ⟨t, tr, ⟨o, x⟩⟩ = none)
    (hr : recoveredOf ⟨t, tr, ⟨o, x⟩⟩ = none) :
    viewWorld ⟨Function.update v.phase t (some (h.next cfg o x)), s', v.log ++ [⟨t, tr, ⟨o, x⟩⟩]⟩ =
      (viewWorld v).set t p s' := by
  rw [viewWorld_claim hp tr s' hn hseen hr, hc]
  simp [World.set]

end

theorem World.set_self {w : World} {p : Phase} (hp : w.phase t = p) (s' : Shared) :
    w.set t p s' = { w with shared := s' } := by
  rw [World.set, ← hp, Function.update_eq_self]

theorem recoveredOf_op {o : Op} {x : o.Ans} (tr : List (Sigma Op.Ans))
    (ho : ∀ sink job, o ≠ .enqueue sink job) :
    recoveredOf ⟨t, tr, ⟨o, x⟩⟩ = none := by
  cases o <;> first | rfl | exact absurd rfl (ho _ _)

theorem now_turn (tr : List (Sigma Op.Ans)) {ts : Nat} (hp : v.phase t = some h) (hown : h.owner = t) :
    Turn cfg (viewWorld v) (.exec t (.now, .time ts))
      (viewWorld ⟨Function.update v.phase t (some (h.next cfg .now ts)), { v.shared with clock := ts },
        v.log ++ [⟨t, tr, ⟨.now, ts⟩⟩]⟩) := by
  have hph : (viewWorld v).phase t = h.phase := by simp [viewWorld, hp]
  have hr := recoveredOf_op (t := t) (x := ts) tr (o := .now) (by simp)
  have tick : h.nextPhase cfg .now ts = h.phase → Turn cfg (viewWorld v) (.exec t (.now, .time ts))
      (viewWorld ⟨Function.update v.phase t (some (h.next cfg .now ts)), { v.shared with clock := ts },
        v.log ++ [⟨t, tr, ⟨.now, ts⟩⟩]⟩) := by
    intro hn
    rw [viewWorld_set hp tr _ hn rfl rfl hr, World.set_self hph]
    exact .tick t ts
  rcases hphase : h.phase with _ | _ | ⟨st, k, e, tk, _ | _⟩ | _ | _ | ⟨st, k, base,
    e⟩ | _ | _ | ⟨st, k, base, e, tk, _ | _⟩ | _ <;>
    try (refine tick ?_; simp [Hand.nextPhase, hphase]; done)
  · rw [viewWorld_set hp tr _ (p := .claimed st k e tk (some ts))
      (by simp [Hand.nextPhase, hphase]) rfl rfl hr]
    exact .dateClaim t st k e tk ts (hph.trans hphase)
  · cases hk : h.owner with
    | worker key =>
      obtain rfl := hown.symm.trans hk
      rw [viewWorld_set hp tr _ (p := .closing st k base
        (Record.closing cfg.clusterID key ts e.apiVersion e.uid))
        (by simp [Hand.nextPhase, hphase, hk]) rfl rfl hr]
      exact .dateClose key st k base e ts (hph.trans hphase)
    | _ => exact tick (by simp [Hand.nextPhase, hphase, hk])
  · rw [viewWorld_set hp tr _ (p := .reserved st k base e tk (some ts))
      (by simp [Hand.nextPhase, hphase]) rfl rfl hr]
    exact .date t st k base e tk ts (hph.trans hphase)

theorem accepted_turn (tr : List (Sigma Op.Ans)) {sink : String} {job : Job} (hp : v.phase t = some h)
    (hown : h.owner = t) (ha : h.MayEnqueue cfg sink job) :
    Turn cfg (viewWorld v) (.exec t (.enqueue sink job, .flag true))
      (viewWorld ⟨Function.update v.phase t (some (h.next cfg (.enqueue sink job) true)),
        (viewWorld v).hand sink job, v.log ++ [⟨t, tr, ⟨.enqueue sink job, true⟩⟩]⟩) := by
  have hph : (viewWorld v).phase t = h.phase := by simp [viewWorld, hp]
  have hse : (viewWorld v).seen t = h.seen := by simp [viewWorld, hp]
  obtain ⟨record, commit⟩ := job
  cases commit with
  | upsert st k key tk confirmed revertEntry =>
    obtain ⟨base, norm, plan, ts, hk, hown', rfl, hd, rfl, rfl, rfl, hr⟩ := ha
    obtain rfl := hown.symm.trans hk
    rw [viewWorld_set hp tr _ (p := .idle) (by simp [Hand.nextPhase, hr]) rfl rfl rfl]
    exact .issue key st k base norm plan tk ts hown' (hse ▸ hd) (hph.trans hr)
  | delete st k key tk =>
    obtain ⟨e, ts, hown', rfl, he, hc, rfl⟩ := ha
    rw [viewWorld_set hp tr _ (p := .idle) (by simp [Hand.nextPhase, hc]) rfl rfl rfl]
    exact .emit t key st k e tk ts hown' he (hph.trans hc)
  | closeOut st k key r =>
    obtain ⟨hrr, hown', rfl, hcase⟩ := ha
    obtain rfl : record = r := hrr
    obtain ⟨hk, rs, hl⟩ | ⟨hk, base, hl⟩ | ⟨hk, hidle, hi, he, x, hout, rfl⟩ := hcase
    · obtain rfl := hown.symm.trans hk
      rw [viewWorld_set hp tr _ (p := .outsOf st k rs) (by simp [Hand.nextPhase, hl]) rfl rfl rfl]
      exact .resubmit key st k _ rs hown' (hph.trans hl)
    · obtain rfl := hown.symm.trans hk
      rw [viewWorld_set hp tr _ (p := .superseded st k base) (by simp [Hand.nextPhase, hl]) rfl rfl rfl]
      exact .close key st k base _ hown' (hph.trans hl)
    · have hn := hown ▸ hk
      rw [viewWorld_next hp]
      simp only [claimOf, recoveredOf, Hand.nextPhase, hidle, Hand.nextSeen, ← hse, hn,
        Function.update_eq_self]
      have hs : Function.update (viewWorld v).phase t .idle = (viewWorld v).phase := by
        rw [← hph.trans hidle, Function.update_eq_self]
      rw [hs]
      have hturn : Turn cfg (viewWorld v) _ _ :=
        .recover t key st k x hown' hn he (hse ▸ hout) (hph.trans hidle) (hse ▸ hi)
      simpa using hturn

theorem refused_turn (tr : List (Sigma Op.Ans)) {sink : String} {job : Job} (hp : v.phase t = some h)
    (hown : h.owner = t) (ha : h.MayEnqueue cfg sink job) :
    Turn cfg (viewWorld v) (.exec t (.enqueue sink job, .flag false))
      (viewWorld ⟨Function.update v.phase t (some (h.next cfg (.enqueue sink job) false)),
        v.shared, v.log ++ [⟨t, tr, ⟨.enqueue sink job, false⟩⟩]⟩) := by
  have hph : (viewWorld v).phase t = h.phase := by simp [viewWorld, hp]
  have hse : (viewWorld v).seen t = h.seen := by simp [viewWorld, hp]
  obtain ⟨record, commit⟩ := job
  cases commit with
  | upsert st k key tk confirmed revertEntry =>
    obtain ⟨base, norm, plan, ts, hk, hown', rfl, hd, rfl, rfl, rfl, hr⟩ := ha
    obtain rfl := hown.symm.trans hk
    rw [viewWorld_set hp tr _ (p := .reverting st k
      (confirmedEntry cfg.lib key.ephemeral norm plan) tk plan.revertEntry)
      (by simp [Hand.nextPhase, hr]) rfl rfl rfl]
    exact .refuse key st k base norm plan tk ts _ hown' (hse ▸ hd) (hph.trans hr) (.refl _)
  | delete st k key tk =>
    obtain ⟨e, ts, hown', rfl, he, hc, rfl⟩ := ha
    rw [viewWorld_set hp tr _ (p := .releasing st k e tk) (by simp [Hand.nextPhase, hc]) rfl rfl rfl]
    exact .emitRefused t st k e tk ts _ (hph.trans hc) (.refl _) _
  | closeOut st k key r =>
    obtain ⟨hrr, hown', rfl, hcase⟩ := ha
    obtain rfl : record = r := hrr
    obtain ⟨hk, rs, hl⟩ | ⟨hk, base, hl⟩ | ⟨hk, hidle, hi, he, x, hout, rfl⟩ := hcase
    · obtain rfl := hown.symm.trans hk
      rw [viewWorld_set hp tr _ (p := h.phase) (by simp [Hand.nextPhase, hl]) rfl rfl rfl,
        World.set_self hph]
      exact .still _ _ rfl (.refl _) rfl rfl (fun _ => .inl rfl)
    · obtain rfl := hown.symm.trans hk
      rw [viewWorld_set hp tr _ (p := h.phase) (by simp [Hand.nextPhase, hl]) rfl rfl rfl,
        World.set_self hph]
      exact .still _ _ rfl (.refl _) rfl rfl (fun _ => .inl rfl)
    · have hn := hown ▸ hk
      rw [viewWorld_next hp]
      simp only [claimOf, recoveredOf, Hand.nextPhase, hidle, Hand.nextSeen, ← hse, hn,
        Function.update_eq_self]
      have hturn : Turn cfg (viewWorld v) _ _ :=
        .recoverRefused t key st k x v.shared hown' hn he (hse ▸ hout) (hph.trans hidle)
          (.refl _) (hse ▸ hi)
      simpa [World.set] using hturn

theorem exec_turn {o : Op} {i : Input} {x : o.Ans} (tr : List (Sigma Op.Ans)) (hp : v.phase t = some h)
    (hown : h.owner = t) (ha : h.Allowed cfg o)
    (hx : exec v.shared t o i = some (s', x)) :
    Turn cfg (viewWorld v) (.exec t (o, i))
      (viewWorld ⟨Function.update v.phase t (some (h.next cfg o x)), s',
          v.log ++ [⟨t, tr, ⟨o, x⟩⟩]⟩) := by
  have hph : (viewWorld v).phase t = h.phase := by simp [viewWorld, hp]
  have hse : (viewWorld v).seen t = h.seen := by simp [viewWorld, hp]
  cases exec_effect hx with
  | quiet _ _ _ _ ho hs =>
    rw [viewWorld_set hp tr _ (Hand.nextPhase_quiet ho x) (Hand.nextSeen_quiet ho x)
      (claimOf_quiet ho x tr)
      (recoveredOf_op tr (by rintro _ _ rfl; exact ho)), World.set_self hph]
    exact .still _ _ rfl hs rfl rfl (fun _ => .inl rfl)
  | sinkState sink =>
    rw [viewWorld_learn hp tr rfl rfl (recoveredOf_op tr (by simp)), Hand.nextSeen, ← hse]
    exact .attach t sink
  | listerGet key l =>
    rw [viewWorld_learn hp tr rfl rfl (recoveredOf_op tr (by simp)), Hand.nextSeen, ← hse]
    exact .look t key l
  | lastKnownStates ref states =>
    rw [viewWorld_learn hp tr rfl rfl (recoveredOf_op tr (by simp)), Hand.nextSeen, ← hse]
    exact .consult t ref states
  | scopeWasActive ref epochStart a =>
    rw [viewWorld_learn hp tr rfl rfl (recoveredOf_op tr (by simp)), Hand.nextSeen, ← hse]
    exact .vouch t ref a epochStart
  | load st k =>
    obtain ⟨hidle, hinst, key, hk, hown'⟩ := ha
    obtain rfl := hown.symm.trans hk
    rw [viewWorld_set hp tr _ rfl rfl rfl rfl]
    exact .load key st k hown' (hse ▸ hinst) (hph.trans hidle)
  | reserve st k e =>
    obtain ⟨key, base, norm, plan, hk, hown', hd, rfl, hcase⟩ := ha
    obtain rfl := hown.symm.trans hk
    have hnext : h.nextPhase cfg (.reserve st k (confirmedEntry cfg.lib key.ephemeral norm plan))
        ((v.shared.slot st k).reserve (confirmedEntry cfg.lib key.ephemeral norm plan)).2 =
        .reserved st k base (confirmedEntry cfg.lib key.ephemeral norm plan)
          ((v.shared.slot st k).reserve (confirmedEntry cfg.lib key.ephemeral norm plan)).2 none := by
      rcases hcase with ⟨hl, -⟩ | ⟨e, rfl, -, hl⟩ <;> simp [Hand.nextPhase, hl]
    rw [viewWorld_set hp tr _ hnext rfl rfl rfl]
    exact .reserve key st k base norm plan hown' (hse ▸ hd) (by rw [hph]; exact hcase)
  | reserveDelete st k uid =>
    have hr := recoveredOf_op (t := t) (x := ((v.shared.slot st k).reserveDelete uid).2) tr
      (o := .reserveDelete st k uid) (by simp)
    by_cases hc : ∃ e tk, ((v.shared.slot st k).reserveDelete uid).2 = .claimed e tk
    · obtain ⟨e, tk, hc⟩ := hc
      have hcl : (v.shared.slot st k).Claims uid _ e tk := Slot.reserveDelete_claimed (Prod.ext rfl hc)
      have hco : claimOf ⟨t, tr, ⟨.reserveDelete st k uid, ((v.shared.slot st k).reserveDelete uid).2⟩⟩ =
          some (st, k, e.uid) := by simp [claimOf, hc]
      rcases ha with ⟨hidle, hi, key, hown', hclaim⟩ | ⟨key, base, norm, hk, hown', he, rfl,
        hobs, hsup, hl⟩
      · rw [viewWorld_claim hp tr _ (p := .claimed st k e tk none)
          (by simp [Hand.nextPhase, hidle, hc]) rfl hr, hco]
        refine .claim t key st k uid e tk _ hown' ?_ (hph.trans hidle) hcl (hse ▸ hi)
        rw [World.MayClaim, hse]
        rcases hclaim with ⟨hk, hm⟩ | ⟨hk, hrest⟩
        · exact .inl ⟨hown.symm.trans hk, hm⟩
        · exact .inr ⟨hown ▸ hk, hrest⟩
      · obtain rfl := hown.symm.trans hk
        rw [viewWorld_claim hp tr _ (p := .superseding st k base e)
          (by simp [Hand.nextPhase, hl, hc]) rfl hr, hco]
        exact .supersede key st k base e norm tk _ hown' he (hse ▸ hobs) hsup (hph.trans hl) hcl
    · have hne : ∀ e tk, ((v.shared.slot st k).reserveDelete uid).2 ≠ .claimed e tk :=
        fun e tk h => hc ⟨e, tk, h⟩
      obtain ⟨hs, hrefused⟩ := Slot.reserveDelete_refused hne
      have hsame : v.shared.Same (v.shared.setSlot st k ((v.shared.slot st k).reserveDelete uid).1) := by
        rw [hs]; exact Shared.same_setSlot _ _ _
      have hcn : claimOf ⟨t, tr, ⟨.reserveDelete st k uid,
        ((v.shared.slot st k).reserveDelete uid).2⟩⟩ = none := by
        cases hx : ((v.shared.slot st k).reserveDelete uid).2 <;> simp_all [claimOf]
      rcases ha with ⟨hidle, -⟩ | ⟨key, base, norm, hk, hown', he, rfl, hobs, hsup, hl⟩
      · rw [viewWorld_set hp tr _ (p := h.phase) ?_ rfl hcn hr, World.set_self hph]
        · exact .still _ _ rfl hsame rfl rfl (fun _ => .inl rfl)
        · cases hx : ((v.shared.slot st k).reserveDelete uid).2 <;> simp_all [Hand.nextPhase]
      · obtain rfl := hown.symm.trans hk
        rw [viewWorld_set hp tr _ (p := .superseded st k base) ?_ rfl hcn hr]
        · exact .outrun key st k base norm _ hown' (hse ▸ hobs) hsup (hph.trans hl)
            (fun e he => (hrefused e he).imp id (·.2)) hsame he
        · cases hx : ((v.shared.slot st k).reserveDelete base.uid).2 <;> simp_all [Hand.nextPhase]
  | commitIfCurrent st k tk e b =>
    obtain ⟨confirmed, hr⟩ := ha
    rw [viewWorld_set hp tr _ rfl rfl rfl (recoveredOf_op tr (by simp))]
    exact .revert t st k confirmed e tk (hph.trans hr)
  | deleteIfCurrent st k tk b =>
    rw [viewWorld_set hp tr _ rfl rfl rfl (recoveredOf_op tr (by simp))]
    rcases ha with ⟨confirmed, hr⟩ | ⟨key, e, hk, hown', he, hc⟩
    · exact .retract t st k confirmed tk (hph.trans hr)
    · obtain rfl := hown.symm.trans hk
      exact .forget key st k e tk hown' he (hph.trans hc)
  | unclaimDelete st k tk =>
    obtain ⟨e, hr⟩ := ha
    rw [viewWorld_set hp tr _ rfl rfl rfl (recoveredOf_op tr (by simp))]
    exact .release t st k e tk (hph.trans hr)
  | storeIfAbsent st k e =>
    obtain ⟨hk, hidle, hi, key, current, hown', hlist, rfl⟩ := ha
    rw [viewWorld_set hp tr _ (p := h.phase) rfl rfl rfl (recoveredOf_op tr (by simp)),
      World.set_self hph]
    exact .seed t key st k current hown' (hown ▸ hk) (hse ▸ hi) (hse ▸ hlist) (hph.trans hidle)
  | closeOutsAdd st k r =>
    rcases ha with ⟨rs, hr⟩ | ⟨base, hr⟩
    · rw [viewWorld_set hp tr _ (p := .outsOf st k rs) (by simp [Hand.nextPhase, hr]) rfl rfl
        (recoveredOf_op tr (by simp))]
      exact .reshelve t st k r rs (hph.trans hr)
    · rw [viewWorld_set hp tr _ (p := .superseded st k base) (by simp [Hand.nextPhase, hr]) rfl rfl
        (recoveredOf_op tr (by simp))]
      exact .shelve t st k base r (hph.trans hr)
  | closeOutsTakeAll st k =>
    rw [viewWorld_set hp tr _ rfl rfl rfl (recoveredOf_op tr (by simp))]
    obtain ⟨hidle, hi, key, hk, hown'⟩ := ha
    obtain rfl := hown.symm.trans hk
    exact .takeAll key st k hown' (hph.trans hidle) (hse ▸ hi)
  | deletePrefix st pre =>
    rw [viewWorld_set hp tr _ (p := h.phase) rfl rfl rfl (recoveredOf_op tr (by simp)),
      World.set_self hph]
    obtain ⟨ref, hk, hst, rfl⟩ := ha
    obtain rfl := hown.symm.trans hk
    exact .evict ref st hst
  | now ts => exact now_turn tr hp hown
  | accepted sink job => exact accepted_turn tr hp hown ha
  | refused sink job => exact refused_turn tr hp hown ha

theorem viewWorld_phase_none (hp : v.phase t = none) (h : Hand) (hi : h.phase = .idle)
    (hs : h.seen = {}) (s' : Shared) :
    viewWorld { v with shared := s', phase := Function.update v.phase t (some h) } =
      { viewWorld v with shared := s' } := by
  simp only [viewWorld, World.mk.injEq, and_true]
  constructor <;> funext u
  · by_cases hu : u = t
    · subst hu; simp [hp, hi]
    · simp [Function.update_of_ne hu]
  · by_cases hu : u = t
    · subst hu; simp [hp, hs]
    · simp [Function.update_of_ne hu]

theorem move_turn (h : (machine cfg).Move (custody cfg) Hand.start Hand.Ended v d v') :
    Turn cfg (viewWorld v) d (viewWorld v') := by
  cases h with
  | start t b s' code hn hs =>
    rw [viewWorld_phase_none hn (Hand.start t) (by cases t <;> rfl) (by cases t <;> rfl)]
    exact .still _ _ rfl (start_same hs) rfl rfl (fun _ => .inl rfl)
  | exec t i o tr s' x hp ha _ hx => exact exec_turn tr hp (after_owner t tr) ha hx
  | finish t err h hp hd =>
    have hph : (viewWorld v).phase t = h.phase := by simp [viewWorld, hp]
    have hs := finish_same v.shared t err
    have hw : viewWorld { v with shared := finish v.shared t err, phase := Function.update v.phase t none } =
        { (viewWorld v).set t .idle (finish v.shared t err) with
          seen := Function.update (viewWorld v).seen t {} } := by
      simp only [viewWorld, World.set, World.mk.injEq, and_true]
      constructor <;> funext u
      · by_cases hu : u = t
        · subst hu; simp
        · simp [Function.update_of_ne hu]
      · by_cases hu : u = t
        · subst hu; simp
        · simp [Function.update_of_ne hu]
    rw [show (machine cfg).finish = finish from rfl, hw]
    cases hphase : h.phase <;> simp only [Hand.Ended, Phase.done, hphase] at hd
    · rw [World.set_self (hph.trans hphase)]
      refine .still _ _ rfl hs rfl rfl (fun u => ?_)
      by_cases hu : u = t
      · subst hu; simp
      · simp [Function.update_of_ne hu]
    · exact .drop t _ _ _ _ (hph.trans hphase) hs
  | env e s' he =>
    cases env_effect he with
    | quiet _ _ hs => exact .still _ _ rfl hs rfl rfl (fun _ => .inl rfl)
    | removeSink sink => exact .removeSink sink
    | insert j sink job hj => exact .insert j sink job hj
    | settle j ok sink job hj hok => exact .settle j ok sink job hj hok
  | crash => exact .crash

theorem Turn.gens {w w' : World} {d : Deed} (h : Turn cfg w d w') (sink : String)
    (hr : d ≠ .env (.removeSink sink)) (hc : d ≠ .crash) : w'.shared.gens sink = w.shared.gens sink := by
  cases h with
  | still _ _ _ hs => rw [hs.gens]
  | drop _ _ _ _ _ _ hs | refuse _ _ _ _ _ _ _ _ _ _ _ _ hs | emitRefused _ _ _ _ _ _ _ _ hs
  | outrun _ _ _ _ _ _ _ _ _ _ _ hs | recoverRefused _ _ _ _ _ _ _ _ _ _ _ hs =>
    exact congrFun hs.gens sink
  | settle => simp
  | removeSink sink' =>
    have hne : sink ≠ sink' := fun he => hr (by rw [he])
    simp [hne]
  | crash => exact absurd rfl hc
  | _ => rfl

theorem World.invariant_deed {I : World → Prop} (ok : World → Deed → Prop) {as : List Action}
    {s : System}
    (h : Runs.Run (machine cfg).step (fun s a => ∀ d ∈ s.deed a, ok (worldOf cfg s) d)
      { shared := {} } as s)
    (hturn : ∀ w d w', I w → ok w d → Turn cfg w d w' → I w') (hI : I {}) : I (worldOf cfg s) :=
  (machine_safe cfg).invariant (I := fun v => I (viewWorld v)) h
    (fun _ _ d v' hi hok hd hm => hturn _ d (viewWorld v') hi (hok d hd) (move_turn hm)) hI

theorem World.invariant {I : World → Prop} (ok : World → Action → Prop) {as : List Action} {s : System}
    (h : Runs.Run (machine cfg).step (fun s a => ok (worldOf cfg s) a) { shared := {} } as s)
    (hturn : ∀ w d w', I w → ok w d.plain → Turn cfg w d w' → I w') (hI : I {}) : I (worldOf cfg s) := by
  refine World.invariant_deed (fun w d => ok w d.plain) (h.mono ?_) hturn hI
  intro s a hok d hd
  rwa [System.plain_deed hd]

end Kuberecord
