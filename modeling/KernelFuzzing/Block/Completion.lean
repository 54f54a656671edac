import KernelFuzzing.Block.Requests

/-! When a call's wait loop ends, against when the device completed the call's own chain. -/
namespace KernelFuzzing.Block.Completion
open Foundation

/-- Each waiting call sees a change of `used.idx` exactly if its chain is completed. -/
def WaitsForOwn (s : System) : Prop :=
  ∀ (k : Nat) (c : Call) (lastSeenIdx : BitVec 32), s.calls[k]? = some c →
    c.phase = .waiting lastSeenIdx → (waits s.backend lastSeenIdx = false ↔ c.completed = true)

def completions (calls : List Call) : Nat := calls.countP Call.completed

/-- The system with the completions there were when each call read `last_seen_idx`. -/
structure Watched where
  system : System
  snapshot : Nat → Nat

def Watched.step (t : Watched) (e : Event) : Watched where
  system := Block.step t.system e
  snapshot :=
    match e, t.system.lock with
    | .notify, some k => Function.update t.snapshot k (completions t.system.calls)
    | _, _ => t.snapshot

def watched (b : Backend) : Watched := ⟨boot b, fun _ => 0⟩

/-- The completions since a call read `last_seen_idx`. -/
def Watched.since (t : Watched) (k : Nat) : Nat := completions t.system.calls - t.snapshot k

/-- No chain is completed before its call has read `last_seen_idx`. While a call waits,
no other chain is completed before its own, nor as the 65536th since it read the index. -/
def Timely (t : Watched) : Event → Prop
  | .notify => ∀ (k : Nat) (c : Call), t.system.lock = some k → t.system.calls[k]? = some c →
      c.completed = false
  | .complete k _ =>
      (∃ c, t.system.calls[k]? = some c ∧ c.completed = false) →
        ∀ (j : Nat) (c : Call) (lastSeenIdx : BitVec 32), j ≠ k →
          t.system.calls[j]? = some c → c.phase = .waiting lastSeenIdx →
            c.completed = true ∧ t.since j + 1 < 65536
  | _ => True

def Counts (idx : BitVec 16) (lastSeenIdx : BitVec 32) (n : Nat) : Prop :=
  n < 65536 ∧ ∃ seen : BitVec 16, lastSeenIdx = seen.setWidth 32 ∧ idx = seen + BitVec.ofNat 16 n

theorem Counts.waits {b : Backend} {lastSeenIdx : BitVec 32} {n : Nat}
    (h : Counts b.used.idx lastSeenIdx n) : waits b lastSeenIdx = false ↔ 0 < n := by
  obtain ⟨hlt, seen, rfl, hidx⟩ := h
  rw [waits_eq_false, hidx]
  constructor
  · intro hne
    refine Nat.pos_of_ne_zero fun hzero => hne ?_
    rw [hzero, BitVec.add_zero]
  · intro hpos heq
    have hseen : seen + BitVec.ofNat 16 n = seen := by
      have hnat := congrArg BitVec.toNat heq
      rw [BitVec.toNat_setWidth, BitVec.toNat_setWidth] at hnat
      apply BitVec.eq_of_toNat_eq
      omega
    bv_omega

/-- A system in which the wait loops follow their own chains, and the completions since
the snapshot of each waiting call. -/
structure Inv (t : Watched) : Prop where
  own : WaitsForOwn t.system
  counts : ∀ (k : Nat) (c : Call) (lastSeenIdx : BitVec 32), t.system.calls[k]? = some c →
    c.phase = .waiting lastSeenIdx → t.snapshot k ≤ completions t.system.calls ∧
      Counts t.system.backend.used.idx lastSeenIdx (t.since k)

section
variable {t : Watched} {c : Call} {j k : Nat} {lastSeenIdx : BitVec 32}

theorem Inv.completed_iff (h : Inv t) (hc : t.system.calls[k]? = some c)
    (hphase : c.phase = .waiting lastSeenIdx) : c.completed = true ↔ 0 < t.since k :=
  (h.own k c lastSeenIdx hc hphase).symm.trans (h.counts k c lastSeenIdx hc hphase).2.waits

theorem Inv.of_same (h : Inv t) {s' : System}
    (used : s'.backend.used = t.system.backend.used)
    (same : completions s'.calls = completions t.system.calls)
    (waiting : ∀ (k : Nat) (c : Call) (lastSeenIdx : BitVec 32), s'.calls[k]? = some c →
      c.phase = .waiting lastSeenIdx → t.system.calls[k]? = some c) :
    Inv ⟨s', t.snapshot⟩ where
  own k c last hc hphase := by
    rw [waits, used]
    exact h.own k c last (waiting k c last hc hphase) hphase
  counts k c last hc hphase := by
    rw [Watched.since, same, used]
    exact h.counts k c last (waiting k c last hc hphase) hphase

theorem completions_phase (calls : List Call) (k : Nat) (phase : Phase) :
    completions (calls.modify k fun c => { c with phase := phase }) = completions calls :=
  countP_modify_of_same fun _ _ => rfl

theorem completions_complete {calls : List Call} (hc : calls[k]? = some c)
    (hopen : c.completed = false) :
    completions (calls.modify k fun c => { c with completed := true }) =
      completions calls + 1 := by
  have hcount := countP_modify (p := Call.completed)
    (f := fun c => { c with completed := true }) hc
  simpa [completions, hopen] using hcount

theorem inv_enter (h : Inv t) {i : Nat} {s' : System} (entered : Enters t.system i s') :
    Inv ⟨s', t.snapshot⟩ := by
  refine h.of_same entered.published.used ?_ fun k c last hc hphase => ?_
  · simp [completions, entered.calls]
  · rw [entered.calls, List.getElem?_append] at hc
    by_cases hk : k < t.system.calls.length
    · rwa [if_pos hk] at hc
    · rw [if_neg hk] at hc
      rw [List.mem_singleton.mp (List.mem_of_getElem? hc)] at hphase
      cases hphase

theorem inv_finish (h : Inv t) (returns : Returns t.system k c) :
    Inv ⟨Block.step t.system (.finish k), t.snapshot⟩ := by
  rw [step_finish returns]
  refine h.of_same rfl (completions_phase t.system.calls k _) fun j d last hd hphase => ?_
  rcases getElem?_modify_cases hd with ⟨rfl, d', hd', rfl⟩ | ⟨hne, hold⟩
  · cases hphase
  · exact hold

theorem step_notify_watched (hlock : t.system.lock = some k) :
    t.step .notify =
      ⟨{ t.system with
          lock := none
          calls := t.system.calls.modify k fun c =>
            { c with phase := .waiting (t.system.backend.used.idx.setWidth 32) } },
        Function.update t.snapshot k (completions t.system.calls)⟩ := by
  simp [Watched.step, step_notify hlock, hlock]

theorem inv_notify (h : Inv t) (hlock : t.system.lock = some k) (ok : Timely t .notify) :
    Inv (t.step .notify) := by
  rw [step_notify_watched hlock]
  constructor
  · intro j c last hc hphase
    rcases getElem?_modify_cases hc with ⟨rfl, d, hd, rfl⟩ | ⟨hne, hold⟩
    · cases hphase
      simp [waits, ok j d hlock hd]
    · exact h.own j c last hold hphase
  · intro j c last hc hphase
    rw [Watched.since]
    dsimp only
    rw [completions_phase]
    rcases getElem?_modify_cases hc with ⟨rfl, d, hd, rfl⟩ | ⟨hne, hold⟩
    · cases hphase
      rw [Function.update_self, Nat.sub_self]
      exact ⟨le_refl _, by decide, _, rfl, (BitVec.add_zero _).symm⟩
    · rw [Function.update_of_ne hne]
      exact h.counts j c last hold hphase

theorem step_complete_watched (hd : t.system.calls[k]? = some c) (hopen : c.completed = false)
    (len : BitVec 32) :
    t.step (.complete k len) =
      ⟨{ t.system with
          backend := reportUsed (BitVec.ofNat 32 c.freeIndex) len t.system.backend
          calls := t.system.calls.modify k fun c => { c with completed := true } },
        t.snapshot⟩ := by
  simp [Watched.step, step_complete hd hopen]

theorem Inv.counts_complete (h : Inv t) (hd : t.system.calls[k]? = some c)
    (hopen : c.completed = false) (len : BitVec 32) {d : Call}
    (hc : t.system.calls[j]? = some d) (hphase : d.phase = .waiting lastSeenIdx)
    (room : t.since j + 1 < 65536) :
    t.snapshot j ≤ completions (t.step (.complete k len)).system.calls ∧
      (t.step (.complete k len)).since j = t.since j + 1 ∧
      Counts (t.step (.complete k len)).system.backend.used.idx lastSeenIdx (t.since j + 1) := by
  have hcount := completions_complete hd hopen
  obtain ⟨hle, hlt, seen, hlast, hidx⟩ := h.counts j d lastSeenIdx hc hphase
  rw [step_complete_watched hd hopen]
  rw [Watched.since]
  dsimp only
  rw [hcount]
  refine ⟨by omega, by rw [Watched.since]; omega, room, seen, hlast, ?_⟩
  · change t.system.backend.used.idx + 1 = _
    rw [hidx]
    bv_omega

theorem inv_complete (h : Inv t) (hd : t.system.calls[k]? = some c) (hopen : c.completed = false)
    (len : BitVec 32) (ok : Timely t (.complete k len)) : Inv (t.step (.complete k len)) := by
  have before (j : Nat) (d : Call) (last : BitVec 32)
      (hc : (t.step (.complete k len)).system.calls[j]? = some d)
      (hphase : d.phase = .waiting last) : d.completed = true ∧
        ∃ d', t.system.calls[j]? = some d' ∧ d'.phase = .waiting last ∧ t.since j + 1 < 65536 := by
    rw [step_complete_watched hd hopen] at hc
    rcases getElem?_modify_cases hc with ⟨rfl, d', hd', rfl⟩ | ⟨hne, hold⟩
    · have hown := (h.completed_iff hd' hphase).not
      obtain rfl := Option.some.inj (hd.symm.trans hd')
      have hzero := hown.mp (by rw [hopen]; decide)
      exact ⟨rfl, c, hd, hphase, by omega⟩
    · obtain ⟨hdone, hroom⟩ := ok ⟨c, hd, hopen⟩ j d last hne hold hphase
      exact ⟨hdone, d, hold, hphase, hroom⟩
  constructor
  · intro j d last hc hphase
    obtain ⟨hdone, d', hd', hphase', hroom⟩ := before j d last hc hphase
    obtain ⟨-, -, hcounts⟩ := h.counts_complete hd hopen len hd' hphase' hroom
    exact iff_of_true (hcounts.waits.mpr (Nat.succ_pos _)) hdone
  · intro j d last hc hphase
    obtain ⟨-, d', hd', hphase', hroom⟩ := before j d last hc hphase
    obtain ⟨hle, hsince, hcounts⟩ := h.counts_complete hd hopen len hd' hphase' hroom
    exact ⟨hle, hsince ▸ hcounts⟩

theorem Watched.step_of_same {e : Event} (same : Block.step t.system e = t.system) :
    t.step e = t := by
  cases e with
  | notify =>
    cases hlock : t.system.lock with
    | none => simp [Watched.step, Block.step, System.notify, hlock]
    | some k =>
      have hunlocked := congrArg System.lock ((step_notify hlock).symm.trans same)
      exact absurd (hunlocked.trans hlock) (by simp)
  | _ => exact congrArg (Watched.mk · t.snapshot) same

theorem inv_step (h : Inv t) {e : Event} (ok : Timely t e) : Inv (t.step e) := by
  rcases step_effect t.system e with same | effect
  · rwa [Watched.step_of_same same]
  · generalize hs' : Block.step t.system e = s' at effect
    cases effect with
    | blockRead r i entered =>
      subst hs'
      exact inv_enter h entered
    | blockWrite r i entered =>
      subst hs'
      exact inv_enter h entered
    | notify k hlock => exact inv_notify h hlock ok
    | consume =>
      change Inv ⟨Block.step t.system .consume, t.snapshot⟩
      rw [hs']
      exact h.of_same rfl rfl fun _ _ _ hc _ => hc
    | complete k c len hc hopen => exact inv_complete h hc hopen len ok
    | finish k c returns => exact inv_finish h returns

/-- An early completion is missed by the call itself, another chain's ends the wait of a call
whose own is open, and the 65536th brings the index back to the snapshot. -/
theorem not_waitsForOwn_step (h : Inv t) {e : Event} (bad : ¬ Timely t e) :
    ¬ WaitsForOwn (t.step e).system := by
  intro own
  cases e with
  | notify =>
    simp only [Timely, not_forall, Bool.not_eq_false] at bad
    obtain ⟨k, c, hlock, hc, hdone⟩ := bad
    rw [step_notify_watched hlock] at own
    have hown := own k _ _ (by rw [List.getElem?_modify_eq, hc]; rfl) rfl
    simp [waits, hdone] at hown
  | complete k len =>
    simp only [Timely, not_forall] at bad
    obtain ⟨⟨d, hd, hopen⟩, j, c, last, hne, hc, hphase, hbad⟩ := bad
    have hget : (t.step (.complete k len)).system.calls[j]? = some c := by
      rw [step_complete_watched hd hopen, List.getElem?_modify_ne _ _ (Ne.symm hne), hc]
    have hown := own j c last hget hphase
    have hcompleted := h.completed_iff hc hphase
    obtain ⟨hle, hlt, seen, hlast, hidx⟩ := h.counts j c last hc hphase
    by_cases hroom : t.since j + 1 < 65536
    · obtain ⟨-, -, hcounts⟩ := h.counts_complete hd hopen len hc hphase hroom
      exact hbad ⟨hown.mp (hcounts.waits.mpr (Nat.succ_pos _)), hroom⟩
    · have hback : (t.step (.complete k len)).system.backend.used.idx = seen := by
        rw [step_complete_watched hd hopen]
        change t.system.backend.used.idx + 1 = seen
        bv_omega
      have hwaits := hown.mpr (hcompleted.mpr (by omega))
      rw [waits_eq_false, hback] at hwaits
      exact hwaits hlast.symm
  | blockRead r => exact absurd trivial bad
  | blockWrite r => exact absurd trivial bad
  | consume => exact absurd trivial bad
  | finish k => exact absurd trivial bad

end

theorem inv_watched (b : Backend) : Inv (watched b) where
  own k c last hc := by simp [watched, boot] at hc
  counts k c last hc := by simp [watched, boot] at hc

/-- Along a run the wait loops follow the completion of their own chains exactly if each
snapshot and each completion of the run is timely. -/
theorem waits_for_own_iff_timely (b : Backend) (events : List Event) :
    Run.Always step WaitsForOwn (boot b) events ↔
      Run.Guarded Watched.step Timely (watched b) events := by
  exact (Run.always_map Watched.system (fun _ _ => rfl) (watched b) events).symm.trans
    (Run.always_iff_guarded_of_total (fun _ => Inv.own) (fun _ _ h => inv_step h)
      (fun _ _ h => not_waitsForOwn_step h) (inv_watched b))

def earlyCompletion : List Event := [.blockRead oneSector, .consume, .complete 0 513, .notify]

theorem not_waits_for_own_early_completion :
    ¬ Run.Always step WaitsForOwn (boot zeroBackend) earlyCompletion := by
  intro always
  have own := always.last 0 ⟨0, .waiting 1, true⟩ 1 rfl rfl
  exact absurd (own.mpr rfl) (by decide)

end KernelFuzzing.Block.Completion
