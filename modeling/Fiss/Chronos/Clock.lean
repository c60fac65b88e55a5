import Fiss.Schemes.OrdSet
import Fiss.Schemes.Runs

/-! Timestamps and the stretchable clock of a site. A local timestamp stays below every timestamp of
    `dist_txn_tss_`, the distributed transactions that hold the site back, and above every one it has
    returned before: when the time has passed the lowest of them the timestamp is moved to just below
    it, and from then on the stretch counter of the last one is counted up.

    The stretch counter of a new reading is the reading itself, so a reading that equals the lowest
    timestamp held back, whose counter is 0, does not count as below it. -/

namespace Fiss.Chronos
open Option List OrdSet

/-- `chr_ts_t`. -/
structure ChrTs where
  timestamp : ℤ := 0
  stretchCounter : ℤ := 0
  siteId : ℕ := 0
  deriving DecidableEq

namespace ChrTs

/-- `operator<`. -/
def less (a b : ChrTs) : Bool :=
  if a.timestamp < b.timestamp then true
  else if b.timestamp < a.timestamp then false
  else if a.stretchCounter < b.stretchCounter then true
  else if b.stretchCounter < a.stretchCounter then false
  else a.siteId < b.siteId

variable {a b c : ChrTs}

instance : LT ChrTs := ⟨fun a b => a.less b = true⟩

instance : LE ChrTs := ⟨fun a b => a.less b = true ∨ a = b⟩

instance : DecidableLT ChrTs := fun a b => inferInstanceAs (Decidable (a.less b = true))

instance : DecidableLE ChrTs := fun a b => inferInstanceAs (Decidable (a.less b = true ∨ a = b))

theorem lt_iff : a < b ↔ a.timestamp < b.timestamp ∨ a.timestamp = b.timestamp ∧
    (a.stretchCounter < b.stretchCounter ∨
      a.stretchCounter = b.stretchCounter ∧ a.siteId < b.siteId) := by
  show a.less b = true ↔ _
  unfold less
  split
  · simp_all
  · split
    · constructor
      · exact fun h => by cases h
      · omega
    · split
      · simp_all; omega
      · split
        · constructor
          · exact fun h => by cases h
          · omega
        · rw [decide_eq_true_eq]
          omega

theorem eq_iff : a = b ↔ a.timestamp = b.timestamp ∧ a.stretchCounter = b.stretchCounter ∧
    a.siteId = b.siteId := by
  cases a
  cases b
  simp

instance : LinearOrder ChrTs where
  le_refl _ := .inr rfl
  le_trans a b c hab hbc := by
    rcases hab with hab | rfl
    · rcases hbc with hbc | rfl
      · have hab : a < b := hab
        have hbc : b < c := hbc
        rw [lt_iff] at hab hbc
        have hac : a < c := by rw [lt_iff]; omega
        exact .inl hac
      · exact .inl hab
    · exact hbc
  lt_iff_le_not_ge a b := by
    constructor
    · intro hab
      refine ⟨.inl hab, fun hba => ?_⟩
      rw [lt_iff] at hab
      rcases hba with hba | rfl
      · have hba : b < a := hba
        rw [lt_iff] at hba
        omega
      · omega
    · rintro ⟨hab | rfl, hno⟩
      · exact hab
      · exact absurd (.inr rfl) hno
  le_antisymm a b hab hba := by
    rcases hab with hab | rfl
    · rcases hba with hba | rfl
      · have hab : a < b := hab
        have hba : b < a := hba
        rw [lt_iff] at hab hba
        omega
      · rfl
    · rfl
  le_total a b := by
    rcases Classical.em (a < b) with hab | hab
    · exact .inl (.inl hab)
    · rcases Classical.em (b < a) with hba | hba
      · exact .inr (.inl hba)
      · refine .inl (.inr (eq_iff.mpr ?_))
        rw [lt_iff] at hab hba
        omega
  toDecidableLE := inferInstance
  toDecidableEq := inferInstance
  toDecidableLT := inferInstance

theorem lt_of_timestamp (h : a.timestamp < b.timestamp) : a < b := lt_iff.mpr (.inl h)

theorem timestamp_le (h : a ≤ b) : a.timestamp ≤ b.timestamp := by
  rcases h with h | rfl
  · have h : a < b := h
    rw [lt_iff] at h
    omega
  · exact le_rfl

end ChrTs

/-- What a site keeps to give out timestamps. -/
structure Clock where
  siteId : ℕ
  clockOffset : ℤ := 0
  lastClock : ChrTs := {}
  distTxnTss : OrdSet ChrTs := ∅

namespace Clock

variable (c : Clock)

/-- The time of the site, as a timestamp. -/
def reading (now : ℤ) : ChrTs := ⟨now + c.clockOffset, now + c.clockOffset, c.siteId⟩

/-- Step 2 of `GenerateChrTs`: a timestamp that is not below the lowest one held back is stretched. -/
def stretch (ret : ChrTs) : ChrTs :=
  match c.distTxnTss.first with
  | none => ret
  | some low => if ret < low then ret else { ret with timestamp := low.timestamp - 1 }

/-- The last step of `GenerateChrTs`: a timestamp that is not above the last one follows on it. -/
def raise (ret : ChrTs) : ChrTs :=
  if c.lastClock < ret then ret
  else { c.lastClock with stretchCounter := c.lastClock.stretchCounter + 1 }

def setLast (ts : ChrTs) : Clock := { c with lastClock := ts }

/-- `GenerateChrTs(true)` at time `now`. -/
def generate (now : ℤ) : ChrTs × Clock :=
  let ret := c.raise (c.stretch (c.reading now))
  (ret, c.setLast ret)

/-- `GenerateChrTs(false)`: the last timestamp is not set. -/
def generateRemote (now : ℤ) : ChrTs :=
  let ret := c.reading now
  if ret < c.lastClock then { ret with timestamp := c.lastClock.timestamp + 1 } else ret

def hold (ts : ChrTs) : Clock := { c with distTxnTss := c.distTxnTss.insert ts }

def release (ts : ChrTs) : Clock := { c with distTxnTss := c.distTxnTss.erase ts }

def setOffset (offset : ℤ) : Clock := { c with clockOffset := offset }

/-- What `HandlePiggyInfo` does to the offset: the site is not behind a timestamp it has heard of. -/
def catchUp (remoteTs : ChrTs) (now : ℤ) : Clock :=
  if (c.generateRemote now).timestamp < remoteTs.timestamp then
    c.setOffset (c.clockOffset + (remoteTs.timestamp - (c.generateRemote now).timestamp))
  else c

/-- The clock is ahead of nothing it holds: all timestamps are from the start of time on, and the ones
    held back are later than the last one given out. -/
structure Behind (c : Clock) : Prop where
  start : 0 ≤ c.lastClock.timestamp
  held : ∀ ts ∈ c.distTxnTss, ts.stretchCounter = 0 ∧ c.lastClock.timestamp < ts.timestamp

variable {c} {ret : ChrTs}

theorem lt_raise (c : Clock) (ret : ChrTs) : c.lastClock < c.raise ret := by
  unfold raise
  split
  · next h => exact h
  · rw [ChrTs.lt_iff]
    simp

theorem stretch_lt (hret : 0 ≤ ret.timestamp → ret.stretchCounter = ret.timestamp) {ts : ChrTs}
    (hc : Behind c) (hts : ts ∈ c.distTxnTss) : (c.stretch ret).timestamp < ts.timestamp := by
  unfold stretch
  cases hfirst : c.distTxnTss.first with
  | none => exact absurd hts (first_eq_none.mp hfirst ts)
  | some low =>
    have hlow : low.timestamp ≤ ts.timestamp := ChrTs.timestamp_le (first_le hfirst hts)
    obtain ⟨hcounter, hlast⟩ := hc.held low (first_mem hfirst)
    have hstart := hc.start
    simp only
    split
    · next hlt =>
      -- a reading at the time of `low` has a positive counter
      rw [ChrTs.lt_iff] at hlt
      omega
    · simp only
      omega

theorem generate_timestamp (hc : Behind c) (now : ℤ) {ts : ChrTs} (hts : ts ∈ c.distTxnTss) :
    (c.generate now).1.timestamp < ts.timestamp := by
  show (c.raise (c.stretch (c.reading now))).timestamp < ts.timestamp
  unfold raise
  split
  · exact stretch_lt (fun _ => rfl) hc hts
  · exact (hc.held ts hts).2

theorem behind_generate (hc : Behind c) (now : ℤ) : Behind (c.generate now).2 where
  start := hc.start.trans (ChrTs.timestamp_le (lt_raise c _).le)
  held ts hts := ⟨(hc.held ts hts).1, generate_timestamp hc now hts⟩

end Clock

/-! ### Runs of the clock -/

/-- A clock with what each call of `GenerateChrTs(true)` has returned, next to `dist_txn_tss_` as the
    call found it. -/
structure Issued where
  clock : Clock
  returned : List (ChrTs × OrdSet ChrTs) := []

inductive ClockEvent where
  | call (now : ℤ)
  | setOffset (offset : ℤ)
  | hold (ts : ChrTs)
  | release (ts : ChrTs)

/-- One step of the clock; each of them returns. -/
def clockStep (s : Issued) : ClockEvent → Option Issued
  | .call now => some ⟨(s.clock.generate now).2,
      s.returned ++ [((s.clock.generate now).1, s.clock.distTxnTss)]⟩
  | .setOffset offset => some { s with clock := s.clock.setOffset offset }
  | .hold ts => some { s with clock := s.clock.hold ts }
  | .release ts => some { s with clock := s.clock.release ts }

/-- What is held back comes later than the last timestamp given out. -/
def Ahead (s : Issued) : ClockEvent → Prop
  | .hold ts => ts.stretchCounter = 0 ∧ s.clock.lastClock.timestamp < ts.timestamp
  | _ => True

instance (s : Issued) : (e : ClockEvent) → Decidable (Ahead s e)
  | .hold ts => inferInstanceAs (Decidable (ts.stretchCounter = 0 ∧ _))
  | .call _ => isTrue trivial
  | .setOffset _ => isTrue trivial
  | .release _ => isTrue trivial

/-- The timestamps returned ascend, and each was below all that was held back. -/
structure Stretched (s : Issued) : Prop where
  increasing : (s.returned.map Prod.fst).Pairwise (· < ·)
  below : ∀ r ∈ s.returned, ∀ ts ∈ r.2, r.1 < ts

/-- What carries it over a step. -/
structure ClockInv (s : Issued) : Prop extends Stretched s where
  behind : s.clock.Behind
  last : ∀ r ∈ s.returned, r.1 ≤ s.clock.lastClock

theorem clockStep_inv (s : Issued) (e : ClockEvent) (s' : Issued) (h : ClockInv s) (he : Ahead s e)
    (hs : clockStep s e = some s') : ClockInv s' := by
  cases e with
  | call now =>
    obtain rfl := some.inj hs
    have hlast : s.clock.lastClock < (s.clock.generate now).1 := Clock.lt_raise _ _
    refine ⟨⟨?_, ?_⟩, Clock.behind_generate h.behind now, ?_⟩
    · rw [map_append]
      refine pairwise_append.mpr ⟨h.increasing, pairwise_singleton _ _, ?_⟩
      intro a ha b hb
      obtain ⟨r, hr, rfl⟩ := mem_map.mp ha
      rw [mem_singleton.mp hb]
      exact (h.last r hr).trans_lt hlast
    · refine forall_mem_concat h.below fun ts hts => ?_
      exact ChrTs.lt_of_timestamp (Clock.generate_timestamp h.behind now hts)
    · exact forall_mem_concat (fun r hr => (h.last r hr).trans hlast.le) le_rfl
  | setOffset offset =>
    obtain rfl := some.inj hs
    exact ⟨⟨h.increasing, h.below⟩, ⟨h.behind.start, h.behind.held⟩, h.last⟩
  | hold ts =>
    obtain rfl := some.inj hs
    refine ⟨⟨h.increasing, h.below⟩, ⟨h.behind.start, fun ts' hts' => ?_⟩, h.last⟩
    rcases mem_insert.mp hts' with rfl | hts'
    · exact he
    · exact h.behind.held ts' hts'
  | release ts =>
    obtain rfl := some.inj hs
    exact ⟨⟨h.increasing, h.below⟩, ⟨h.behind.start, fun ts' hts' =>
      h.behind.held ts' (mem_erase.mp hts').1⟩, h.last⟩

/-- A site as it is constructed; the offset is not initialised. -/
def newClock (siteId : ℕ) (offset : ℤ) : Issued := ⟨{ siteId := siteId, clockOffset := offset }, []⟩

/-- Whatever the readings and the offsets, the timestamps given out ascend and stay below everything
    that is held back. -/
theorem clock_stretches {siteId : ℕ} {offset : ℤ} {es : List ClockEvent}
    (h : Along clockStep Ahead (newClock siteId offset) es) :
    Throughout clockStep Stretched (newClock siteId offset) es := by
  have hnew : ClockInv (newClock siteId offset) :=
    ⟨⟨List.Pairwise.nil, forall_mem_nil _⟩,
      ⟨le_rfl, fun ts hts => absurd hts (notMem_empty ts)⟩,
      forall_mem_nil _⟩
  exact throughout_mono (fun _ hs => hs.toStretched) (throughout_of_inv clockStep_inv hnew h)

/-- A transaction holds the site back at 50; the time goes on past it, and then back. -/
def heldRun : List ClockEvent :=
  [.call 40, .hold ⟨50, 0, 9⟩, .call 60, .call 70, .setOffset (-30), .call 60, .release ⟨50, 0, 9⟩,
    .setOffset 0, .call 80]

theorem clock_stretches_held :
    (run clockStep (newClock 1 0) heldRun).map (fun s => s.returned.map Prod.fst) =
      some [⟨40, 40, 1⟩, ⟨49, 60, 1⟩, ⟨49, 70, 1⟩, ⟨49, 71, 1⟩, ⟨80, 80, 1⟩] ∧
    Throughout clockStep Stretched (newClock 1 0) heldRun :=
  ⟨by decide, clock_stretches (by decide)⟩

end Fiss.Chronos
