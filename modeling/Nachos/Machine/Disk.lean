import Nachos.Library.Simulation

/-! When the requests to the disk are done (`machine/disk.cc`). The transfers themselves are not
part of it. -/
namespace Nachos.DiskTime

def SectorsPerTrack : ℤ := 32
def NumTracks : ℤ := 32
def NumSectors : ℤ := SectorsPerTrack * NumTracks
def RotationTime : ℤ := 500
def SeekTime : ℤ := 500

/-- A value in an `int`. -/
def wrap (x : ℤ) : ℤ := (x + 2 ^ 31) % 2 ^ 32 - 2 ^ 31

structure Disk where
  active : Bool
  lastSector : ℤ
  bufferInit : ℤ
  deriving DecidableEq

namespace Disk

/-- The constructor. -/
def new : Disk := ⟨false, 0, 0⟩

/-- The time to the track, and the rotation to the next sector boundary. -/
def timeToSeek (disk : Disk) (totalTicks newSector : ℤ) : ℤ × ℤ :=
  let newTrack := newSector.tdiv SectorsPerTrack
  let oldTrack := disk.lastSector.tdiv SectorsPerTrack
  let seek := wrap ((newTrack - oldTrack).natAbs * SeekTime)
  let overrun := (wrap (totalTicks + seek)).tmod RotationTime
  (seek, if overrun > 0 then RotationTime - overrun else 0)

/-- The sectors that pass before `target` comes, from `current` on. -/
def moduloDiff (target current : ℤ) : ℤ :=
  let toOffset := target.tmod SectorsPerTrack
  let fromOffset := current.tmod SectorsPerTrack
  ((toOffset - fromOffset) + SectorsPerTrack).tmod SectorsPerTrack

/-- The time of the first sector boundary after the seek. -/
def timeAfter (disk : Disk) (totalTicks newSector : ℤ) : ℤ :=
  let (seek, rotation) := disk.timeToSeek totalTicks newSector
  wrap (wrap (totalTicks + seek) + rotation)

/-- Whether the track buffer applies. -/
def inTrackBuffer (disk : Disk) (totalTicks newSector : ℤ) (writing : Bool) : Bool :=
  let (seek, _) := disk.timeToSeek totalTicks newSector
  writing = false ∧ seek = 0 ∧
    (wrap (disk.timeAfter totalTicks newSector - disk.bufferInit)).tdiv RotationTime >
      moduloDiff newSector (disk.bufferInit.tdiv RotationTime)

def computeLatency (disk : Disk) (totalTicks newSector : ℤ) (writing : Bool) : ℤ :=
  let (seek, rotation) := disk.timeToSeek totalTicks newSector
  if disk.inTrackBuffer totalTicks newSector writing then RotationTime
  else
    let sectors := moduloDiff newSector ((disk.timeAfter totalTicks newSector).tdiv RotationTime)
    let rotation := wrap (rotation + sectors * RotationTime)
    wrap (wrap (seek + rotation) + RotationTime)

def updateLast (disk : Disk) (totalTicks newSector : ℤ) : Disk :=
  let (seek, _) := disk.timeToSeek totalTicks newSector
  { disk with
    bufferInit := if seek ≠ 0 then disk.timeAfter totalTicks newSector else disk.bufferInit
    lastSector := newSector }

/-- `ReadRequest` and `WriteRequest`: the ticks until the interrupt. -/
def request (disk : Disk) (totalTicks sectorNumber : ℤ) (writing : Bool) : Option (ℤ × Disk) :=
  let ticks := disk.computeLatency totalTicks sectorNumber writing
  if disk.active ∨ ¬(sectorNumber ≥ 0 ∧ sectorNumber < NumSectors) then none
  else some (ticks, { disk.updateLast totalTicks sectorNumber with active := true })

def callBack (disk : Disk) : Disk := { disk with active := false }

end Disk

structure Request where
  totalTicks : ℤ
  sectorNumber : ℤ
  writing : Bool
  deriving DecidableEq

/-- A request that is made when the last one is done, at `done`, or later, and its interrupt. The
answer is the time of the interrupt. -/
def serve (s : Disk × ℤ) (r : Request) : Option (ℤ × Disk × ℤ) := do
  let (disk, done) := s
  if r.totalTicks < done then none
  else
    let (ticks, disk) ← disk.request r.totalTicks r.sectorNumber r.writing
    if r.totalTicks + ticks < 2 ^ 31 then
      return (r.totalTicks + ticks, disk.callBack, r.totalTicks + ticks)
    else none

/-- The head is over the sectors one after the other, a track each round. Between the two times it
was over this sector from its start to its end. -/
def Passed (sector start stop : ℤ) : Prop :=
  ∃ k : ℤ, k % SectorsPerTrack = sector % SectorsPerTrack ∧
    start ≤ k * RotationTime ∧ (k + 1) * RotationTime ≤ stop

theorem wrap_of_lt {x : ℤ} (hlow : 0 ≤ x) (hhigh : x < 2 ^ 31) : wrap x = x := by
  unfold wrap
  omega

/-- The time of a seek to the sector, as it would be without any bound. -/
def seekTime (disk : Disk) (sector : ℤ) : ℤ :=
  ((sector.tdiv SectorsPerTrack - disk.lastSector.tdiv SectorsPerTrack).natAbs : ℤ) * SeekTime

/-- The next sector boundary, from `t` on. -/
def boundary (t : ℤ) : ℤ := (t + (RotationTime - 1)) / RotationTime

/-- Where the head is: on the track of the sector that was asked for last, since the first sector
boundary after it came there. -/
structure Head where
  sector : ℤ
  since : ℤ
  deriving DecidableEq

/-- The head moves when a sector of another track is asked for. -/
def Head.serve (head : Head) (r : Request) : Head :=
  let tracks := (r.sectorNumber / SectorsPerTrack - head.sector / SectorsPerTrack).natAbs
  { sector := r.sectorNumber
    since :=
      if tracks = 0 then head.since
      else boundary (r.totalTicks + tracks * SeekTime) * RotationTime }

/-- The head starts over sector 0 at time 0. -/
def headAfter (requests : List Request) : Head := requests.foldl Head.serve ⟨0, 0⟩

/-- What the disk remembers is where the head is. -/
structure Tracks (head : Head) (disk : Disk) : Prop where
  sector : disk.lastSector = head.sector
  since : disk.bufferInit = head.since

/-- What holds of the disk from the time on at which it is done. -/
structure Ready (disk : Disk) (done : ℤ) : Prop where
  idle : disk.active = false
  sector : 0 ≤ disk.lastSector ∧ disk.lastSector < NumSectors
  loaded : ∃ b : ℤ, 0 ≤ b ∧ disk.bufferInit = b * RotationTime
  since : disk.bufferInit ≤ done

variable {disk disk' : Disk} {done totalTicks sector ticks t : ℤ} {writing : Bool}

theorem boundary_spec (t : ℤ) : t ≤ boundary t * RotationTime ∧
    boundary t * RotationTime < t + RotationTime := by
  unfold boundary RotationTime
  omega

/-- No pass that starts at `t` or later starts before the boundary. -/
theorem boundary_le {k : ℤ} (h : t ≤ k * RotationTime) : boundary t ≤ k := by
  unfold boundary
  unfold RotationTime at *
  omega

theorem seekTime_bounds (h : Ready disk done) (hsector : 0 ≤ sector ∧ sector < NumSectors) :
    0 ≤ seekTime disk sector ∧ seekTime disk sector < 32 * SeekTime := by
  have hlast := h.sector
  unfold seekTime
  rw [Int.tdiv_eq_ediv_of_nonneg hsector.1, Int.tdiv_eq_ediv_of_nonneg hlast.1]
  unfold NumSectors NumTracks SectorsPerTrack at *
  unfold SeekTime
  omega

theorem moduloDiff_bounds {target : ℤ} (ht : 0 ≤ target) (current : ℤ) :
    0 ≤ Disk.moduloDiff target current ∧ Disk.moduloDiff target current < SectorsPerTrack := by
  have hlow := Int.lt_tmod_of_pos current (show (0 : ℤ) < SectorsPerTrack by decide)
  have hhigh := Int.tmod_lt_of_pos current (show (0 : ℤ) < SectorsPerTrack by decide)
  unfold Disk.moduloDiff
  rw [Int.tmod_eq_emod_of_nonneg ht]
  unfold SectorsPerTrack at *
  rw [Int.tmod_eq_emod_of_nonneg (by omega)]
  omega

theorem moduloDiff_mod {target current : ℤ} (ht : 0 ≤ target) (hc : 0 ≤ current) :
    (current + Disk.moduloDiff target current) % SectorsPerTrack = target % SectorsPerTrack := by
  unfold Disk.moduloDiff
  rw [Int.tmod_eq_emod_of_nonneg ht, Int.tmod_eq_emod_of_nonneg hc]
  unfold SectorsPerTrack
  rw [Int.tmod_eq_emod_of_nonneg (by omega)]
  omega

theorem timeToSeek_fst (h : Ready disk done) (hsector : 0 ≤ sector ∧ sector < NumSectors)
    (totalTicks : ℤ) : (disk.timeToSeek totalTicks sector).1 = seekTime disk sector := by
  have hseek := seekTime_bounds h hsector
  have hlt : seekTime disk sector < 2 ^ 31 := hseek.2.trans (by decide)
  exact wrap_of_lt hseek.1 hlt

/-- How far the head is in a sector when the seek ends. -/
def overrun (disk : Disk) (totalTicks sector : ℤ) : ℤ :=
  (wrap (totalTicks + (disk.timeToSeek totalTicks sector).1)).tmod RotationTime

theorem timeToSeek_snd (disk : Disk) (totalTicks sector : ℤ) :
    (disk.timeToSeek totalTicks sector).2 =
      if overrun disk totalTicks sector > 0 then RotationTime - overrun disk totalTicks sector
      else 0 := rfl

theorem rotation_bounds (disk : Disk) (totalTicks sector : ℤ) :
    0 ≤ (disk.timeToSeek totalTicks sector).2 ∧
      (disk.timeToSeek totalTicks sector).2 < RotationTime := by
  have hlt : overrun disk totalTicks sector < RotationTime := Int.tmod_lt_of_pos _ (by decide)
  rw [timeToSeek_snd]
  unfold RotationTime at *
  split <;> omega

/-- Where the seek ends in an `int`, the rotation is up to the next boundary. -/
theorem rotation_eq (h : Ready disk done) (hsector : 0 ≤ sector ∧ sector < NumSectors)
    (hticks : 0 ≤ totalTicks) (hint : totalTicks + seekTime disk sector < 2 ^ 31) :
    (disk.timeToSeek totalTicks sector).2 =
      boundary (totalTicks + seekTime disk sector) * RotationTime -
        (totalTicks + seekTime disk sector) := by
  have hseek := seekTime_bounds h hsector
  have hnonneg : 0 ≤ totalTicks + seekTime disk sector := by omega
  have hover : overrun disk totalTicks sector =
      (totalTicks + seekTime disk sector) % RotationTime := by
    rw [overrun, timeToSeek_fst h hsector, wrap_of_lt hnonneg hint,
      Int.tmod_eq_emod_of_nonneg hnonneg]
  rw [timeToSeek_snd, hover]
  unfold boundary RotationTime
  split <;> omega

theorem computeLatency_eq (disk : Disk) (totalTicks sector : ℤ) (writing : Bool) :
    disk.computeLatency totalTicks sector writing =
      if disk.inTrackBuffer totalTicks sector writing then RotationTime
      else wrap (wrap ((disk.timeToSeek totalTicks sector).1 +
        wrap ((disk.timeToSeek totalTicks sector).2 +
          Disk.moduloDiff sector ((disk.timeAfter totalTicks sector).tdiv RotationTime) *
            RotationTime)) + RotationTime) := rfl

/-- What the latency is made of without the track buffer, whatever the time. -/
theorem computeLatency_of_not (h : Ready disk done) (hsector : 0 ≤ sector ∧ sector < NumSectors)
    (hnot : disk.inTrackBuffer totalTicks sector writing = false) :
    disk.computeLatency totalTicks sector writing =
      seekTime disk sector + (disk.timeToSeek totalTicks sector).2 +
        (Disk.moduloDiff sector ((disk.timeAfter totalTicks sector).tdiv RotationTime) + 1) *
          RotationTime := by
  have hseek := seekTime_bounds h hsector
  have hrotation := rotation_bounds disk totalTicks sector
  have hdiff := moduloDiff_bounds hsector.1 ((disk.timeAfter totalTicks sector).tdiv RotationTime)
  rw [computeLatency_eq, hnot, if_neg Bool.false_ne_true, timeToSeek_fst h hsector]
  generalize Disk.moduloDiff sector ((disk.timeAfter totalTicks sector).tdiv RotationTime) = m at *
  generalize (disk.timeToSeek totalTicks sector).2 = rotation at *
  unfold SectorsPerTrack RotationTime SeekTime wrap at *
  omega

theorem inTrackBuffer_iff : disk.inTrackBuffer totalTicks sector writing = true ↔
    writing = false ∧ (disk.timeToSeek totalTicks sector).1 = 0 ∧
      (wrap (disk.timeAfter totalTicks sector - disk.bufferInit)).tdiv RotationTime >
        Disk.moduloDiff sector (disk.bufferInit.tdiv RotationTime) := decide_eq_true_iff

theorem computeLatency_pos (h : Ready disk done) (hsector : 0 ≤ sector ∧ sector < NumSectors)
    (totalTicks : ℤ) (writing : Bool) : 0 < disk.computeLatency totalTicks sector writing := by
  cases hbuffer : disk.inTrackBuffer totalTicks sector writing with
  | true =>
    rw [computeLatency_eq, hbuffer, if_pos rfl]
    decide
  | false =>
    have hseek := seekTime_bounds h hsector
    have hrotation := rotation_bounds disk totalTicks sector
    have hdiff := moduloDiff_bounds hsector.1
      ((disk.timeAfter totalTicks sector).tdiv RotationTime)
    rw [computeLatency_of_not h hsector hbuffer]
    unfold RotationTime at *
    omega

/-- Before the request is done, no time the code adds up exceeds an `int`. -/
theorem seek_le_latency (h : Ready disk done) (hsector : 0 ≤ sector ∧ sector < NumSectors)
    (totalTicks : ℤ) (writing : Bool) :
    seekTime disk sector + (disk.timeToSeek totalTicks sector).2 ≤
      disk.computeLatency totalTicks sector writing := by
  cases hbuffer : disk.inTrackBuffer totalTicks sector writing with
  | true =>
    have hseek := (inTrackBuffer_iff.mp hbuffer).2.1
    rw [timeToSeek_fst h hsector] at hseek
    rw [computeLatency_eq, hbuffer, if_pos rfl, hseek, zero_add]
    exact (rotation_bounds disk totalTicks sector).2.le
  | false =>
    have hdiff := moduloDiff_bounds hsector.1
      ((disk.timeAfter totalTicks sector).tdiv RotationTime)
    rw [computeLatency_of_not h hsector hbuffer]
    unfold RotationTime at *
    omega

theorem timeAfter_eq (h : Ready disk done) (hsector : 0 ≤ sector ∧ sector < NumSectors)
    (hticks : 0 ≤ totalTicks)
    (hint : totalTicks + disk.computeLatency totalTicks sector writing < 2 ^ 31) :
    disk.timeAfter totalTicks sector =
      boundary (totalTicks + seekTime disk sector) * RotationTime := by
  have hseek := seekTime_bounds h hsector
  have hle := seek_le_latency h hsector totalTicks writing
  have hrotation := rotation_bounds disk totalTicks sector
  have heq := rotation_eq h hsector hticks (by omega)
  have hwrap : wrap (totalTicks + seekTime disk sector) = totalTicks + seekTime disk sector :=
    wrap_of_lt (by omega) (by omega)
  have hafter : disk.timeAfter totalTicks sector = wrap (wrap (totalTicks +
    (disk.timeToSeek totalTicks sector).1) + (disk.timeToSeek totalTicks sector).2) := rfl
  rw [hafter, timeToSeek_fst h hsector, hwrap, wrap_of_lt (by omega) (by omega), heq]
  omega

/-- A valid request to an idle disk passes the assertions. -/
theorem request_eq (h : Ready disk done) (hsector : 0 ≤ sector ∧ sector < NumSectors)
    (totalTicks : ℤ) (writing : Bool) : disk.request totalTicks sector writing =
      some (disk.computeLatency totalTicks sector writing,
        { disk.updateLast totalTicks sector with active := true }) := by
  rw [Disk.request, h.idle]
  exact if_neg (by simp [hsector])

theorem updateLast_eq (disk : Disk) (totalTicks sector : ℤ) : disk.updateLast totalTicks sector =
    ⟨disk.active, sector, if (disk.timeToSeek totalTicks sector).1 ≠ 0 then
      disk.timeAfter totalTicks sector else disk.bufferInit⟩ := rfl

section

variable (h : Ready disk done) (hsector : 0 ≤ sector ∧ sector < NumSectors)
  (hticks : 0 ≤ totalTicks)
  (hint : totalTicks + disk.computeLatency totalTicks sector writing < 2 ^ 31)

include h hsector hticks hint

/-- Without the track buffer, the first whole pass of the sector after the seek is waited for. -/
theorem first_pass (hnot : disk.inTrackBuffer totalTicks sector writing = false) :
    RotationTime ∣ totalTicks + disk.computeLatency totalTicks sector writing ∧
      totalTicks + seekTime disk sector <
        totalTicks + disk.computeLatency totalTicks sector writing ∧
      Passed sector (totalTicks + seekTime disk sector)
        (totalTicks + disk.computeLatency totalTicks sector writing) ∧
      ∀ stop, Passed sector (totalTicks + seekTime disk sector) stop →
        totalTicks + disk.computeLatency totalTicks sector writing ≤ stop := by
  have hseek := seekTime_bounds h hsector
  have hle := seek_le_latency h hsector totalTicks writing
  have hrotation := rotation_bounds disk totalTicks sector
  have heq := rotation_eq h hsector hticks (by omega)
  have hafter := timeAfter_eq h hsector hticks hint
  have hboundary := boundary_spec (totalTicks + seekTime disk sector)
  have hnonneg : 0 ≤ boundary (totalTicks + seekTime disk sector) := by
    unfold RotationTime at hboundary
    omega
  have hdiv : (disk.timeAfter totalTicks sector).tdiv RotationTime =
      boundary (totalTicks + seekTime disk sector) := by
    rw [hafter]
    exact Int.mul_tdiv_cancel _ (by decide)
  have hdiff := moduloDiff_bounds hsector.1 (boundary (totalTicks + seekTime disk sector))
  have hmod := moduloDiff_mod hsector.1 hnonneg
  have hfinish : totalTicks + disk.computeLatency totalTicks sector writing =
      (boundary (totalTicks + seekTime disk sector) +
        Disk.moduloDiff sector (boundary (totalTicks + seekTime disk sector)) + 1) *
          RotationTime := by
    rw [computeLatency_of_not h hsector hnot, hdiv, heq]
    ring
  rw [hfinish]
  refine ⟨⟨_, mul_comm _ _⟩, ?_, ⟨_, hmod, ?_, le_rfl⟩, ?_⟩
  · unfold RotationTime at *
    omega
  · unfold RotationTime at *
    omega
  · rintro stop ⟨k, hk, hstart, hstop⟩
    have hle := boundary_le hstart
    unfold RotationTime SectorsPerTrack at *
    omega

/-- From the track buffer comes what has passed while it was loaded. -/
theorem buffered_pass (hdone : done ≤ totalTicks)
    (hbuffer : disk.inTrackBuffer totalTicks sector writing = true) :
    writing = false ∧ sector / SectorsPerTrack = disk.lastSector / SectorsPerTrack ∧
      Passed sector disk.bufferInit
        (totalTicks + disk.computeLatency totalTicks sector writing) := by
  obtain ⟨hread, hseek, hpassed⟩ := inTrackBuffer_iff.mp hbuffer
  have hafter := timeAfter_eq h hsector hticks hint
  rw [timeToSeek_fst h hsector] at hseek
  obtain ⟨b, hb, hloaded⟩ := h.loaded
  have hsince := h.since
  have hlatency : disk.computeLatency totalTicks sector writing = RotationTime := by
    rw [computeLatency_eq, hbuffer, if_pos rfl]
  have hdiv : disk.bufferInit.tdiv RotationTime = b := by
    rw [hloaded]
    exact Int.mul_tdiv_cancel _ (by decide)
  have hdiff := moduloDiff_bounds hsector.1 b
  have hmod := moduloDiff_mod hsector.1 hb
  rw [hseek, add_zero] at hafter
  have hboundary := boundary_spec totalTicks
  have hwrap : wrap (disk.timeAfter totalTicks sector - disk.bufferInit) =
      (boundary totalTicks - b) * RotationTime := by
    rw [hafter, hloaded, ← sub_mul]
    rw [hlatency] at hint
    rw [hloaded] at hsince
    unfold RotationTime at *
    exact wrap_of_lt (by omega) (by omega)
  rw [hdiv, hwrap, Int.mul_tdiv_cancel _ (by decide)] at hpassed
  refine ⟨hread, ?_, b + Disk.moduloDiff sector b, hmod, ?_, ?_⟩
  · have hlast := h.sector
    rw [seekTime, Int.tdiv_eq_ediv_of_nonneg hsector.1, Int.tdiv_eq_ediv_of_nonneg hlast.1] at hseek
    unfold SeekTime at hseek
    omega
  · rw [hloaded]
    unfold RotationTime
    omega
  · rw [hlatency]
    unfold RotationTime at *
    omega

/-- After a request that is done in time the disk is ready again. -/
theorem ready_updateLast (hdone : done ≤ totalTicks) :
    Ready (Disk.callBack { disk.updateLast totalTicks sector with active := true })
      (totalTicks + disk.computeLatency totalTicks sector writing) := by
  have hseek := seekTime_bounds h hsector
  have hpos := computeLatency_pos h hsector totalTicks writing
  have hle := seek_le_latency h hsector totalTicks writing
  have hrotation := rotation_bounds disk totalTicks sector
  have hafter := timeAfter_eq h hsector hticks hint
  have heq := rotation_eq h hsector hticks (by omega)
  have hboundary := boundary_spec (totalTicks + seekTime disk sector)
  have hsince := h.since
  rw [updateLast_eq, Disk.callBack]
  split
  · refine ⟨rfl, hsector, ⟨boundary (totalTicks + seekTime disk sector), ?_, hafter⟩, ?_⟩
    · unfold RotationTime at hboundary
      omega
    · change disk.timeAfter totalTicks sector ≤ _
      omega
  · exact ⟨rfl, hsector, h.loaded, hsince.trans (by omega)⟩

end

/-- Another track has been asked for exactly when there is a seek. -/
theorem seekTime_eq {head : Head} (h : Ready disk done) (htracks : Tracks head disk)
    (hsector : 0 ≤ sector ∧ sector < NumSectors) : seekTime disk sector =
      ((sector / SectorsPerTrack - head.sector / SectorsPerTrack).natAbs : ℤ) * SeekTime := by
  have hlast := h.sector
  rw [seekTime, ← htracks.sector, Int.tdiv_eq_ediv_of_nonneg hsector.1,
    Int.tdiv_eq_ediv_of_nonneg hlast.1]

/-- `UpdateLast` follows the head. -/
theorem tracks_updateLast {head : Head} {r : Request} (h : Ready disk done)
    (htracks : Tracks head disk) (hsector : 0 ≤ r.sectorNumber ∧ r.sectorNumber < NumSectors)
    (hticks : 0 ≤ r.totalTicks)
    (hint : r.totalTicks + disk.computeLatency r.totalTicks r.sectorNumber r.writing < 2 ^ 31) :
    Tracks (head.serve r)
      (Disk.callBack { disk.updateLast r.totalTicks r.sectorNumber with active := true }) := by
  have hafter := timeAfter_eq h hsector hticks hint
  have hseek := seekTime_eq h htracks hsector
  rw [updateLast_eq, timeToSeek_fst h hsector, hafter, hseek]
  refine ⟨rfl, ?_⟩
  simp only [Disk.callBack, Head.serve, htracks.since]
  by_cases hsame :
      (r.sectorNumber / SectorsPerTrack - head.sector / SectorsPerTrack).natAbs = 0
  · rw [if_pos hsame, hsame, if_neg (by decide)]
  · rw [if_neg hsame, if_pos]
    unfold SeekTime
    omega

theorem ready_new : Ready Disk.new 0 :=
  ⟨rfl, ⟨le_rfl, by decide⟩, ⟨0, le_rfl, rfl⟩, le_rfl⟩

theorem serve_eq {r : Request} (h : Ready disk done)
    (hsector : 0 ≤ r.sectorNumber ∧ r.sectorNumber < NumSectors) (hnow : done ≤ r.totalTicks)
    (hint : r.totalTicks + disk.computeLatency r.totalTicks r.sectorNumber r.writing < 2 ^ 31) :
    serve (disk, done) r =
      some (r.totalTicks + disk.computeLatency r.totalTicks r.sectorNumber r.writing,
        Disk.callBack { disk.updateLast r.totalTicks r.sectorNumber with active := true },
        r.totalTicks + disk.computeLatency r.totalTicks r.sectorNumber r.writing) := by
  unfold serve
  dsimp only
  rw [if_neg (not_lt.mpr hnow), request_eq h hsector]
  simp only [Option.bind_eq_bind, Option.bind_some, if_pos hint, Option.pure_def]

/-- A request that is served passed the assertion, and was done in time. -/
theorem serve_inv {r : Request} {finish : ℤ} {s : Disk × ℤ} (h : Ready disk done)
    (hserve : serve (disk, done) r = some (finish, s)) :
    (0 ≤ r.sectorNumber ∧ r.sectorNumber < NumSectors) ∧ done ≤ r.totalTicks ∧
      r.totalTicks + disk.computeLatency r.totalTicks r.sectorNumber r.writing < 2 ^ 31 := by
  unfold serve at hserve
  dsimp only at hserve
  split at hserve
  · cases hserve
  · next hnow =>
    obtain ⟨⟨ticks, disk'⟩, hrequest, hserve⟩ := Option.bind_eq_some_iff.mp hserve
    have hsector : 0 ≤ r.sectorNumber ∧ r.sectorNumber < NumSectors := by
      unfold Disk.request at hrequest
      dsimp only at hrequest
      split at hrequest
      · cases hrequest
      · next hok => exact not_not.mp (not_or.mp hok).2
    rw [request_eq h hsector] at hrequest
    cases hrequest
    split at hserve
    · next hint => exact ⟨hsector, not_lt.mp hnow, hint⟩
    · cases hserve

/-- The disk after a run of requests, and where the head is. -/
structure Served (head : Head) (s : Disk × ℤ) : Prop where
  nonneg : 0 ≤ s.2
  ready : Ready s.1 s.2
  tracks : Tracks head s.1

theorem Served.serve {head : Head} {r : Request} {finish : ℤ} {s s' : Disk × ℤ}
    (h : Served head s) (hserve : DiskTime.serve s r = some (finish, s')) :
    Served (head.serve r) s' := by
  obtain ⟨disk, done⟩ := s
  obtain ⟨hdone, hready, htracks⟩ := h
  obtain ⟨hsector, hnow, hint⟩ := serve_inv hready hserve
  rw [serve_eq hready hsector hnow hint] at hserve
  cases hserve
  have hpos := computeLatency_pos hready hsector r.totalTicks r.writing
  have hticks : 0 ≤ r.totalTicks := le_trans hdone hnow
  exact ⟨by linarith, ready_updateLast hready hsector hticks hint hnow,
    tracks_updateLast hready htracks hsector hticks hint⟩

/-- The disk is ready again after every run of requests, and remembers where the head is. -/
theorem served_run {requests : List Request} {times : List ℤ}
    (hrun : Simulation.run serve (Disk.new, 0) requests = some (times, disk, done)) :
    Served (headAfter requests) (disk, done) :=
  Simulation.run_foldl ⟨le_rfl, ready_new, rfl, rfl⟩ (fun _ _ _ _ _ h hserve => h.serve hserve) hrun

/-- After any run of requests the disk remembers where the head is, and a request is done in the
time of the rotating disk. -/
theorem rotating_disk {requests : List Request} {times : List ℤ}
    (hrun : Simulation.run serve (Disk.new, 0) requests = some (times, disk, done)) {r : Request}
    (hnow : done ≤ r.totalTicks)
    (hsector : 0 ≤ r.sectorNumber ∧ r.sectorNumber < NumSectors) :
    disk.lastSector = (headAfter requests).sector ∧ disk.bufferInit = (headAfter requests).since ∧
    ∃ ticks disk', disk.request r.totalTicks r.sectorNumber r.writing = some (ticks, disk') ∧
      0 < ticks ∧ (r.totalTicks + ticks < 2 ^ 31 →
        serve (disk, done) r =
          some (r.totalTicks + ticks, disk'.callBack, r.totalTicks + ticks) ∧
        if disk.inTrackBuffer r.totalTicks r.sectorNumber r.writing then
          r.writing = false ∧
          r.sectorNumber / SectorsPerTrack = disk.lastSector / SectorsPerTrack ∧
          Passed r.sectorNumber disk.bufferInit (r.totalTicks + ticks)
        else
          RotationTime ∣ r.totalTicks + ticks ∧
          r.totalTicks + seekTime disk r.sectorNumber < r.totalTicks + ticks ∧
          Passed r.sectorNumber (r.totalTicks + seekTime disk r.sectorNumber)
            (r.totalTicks + ticks) ∧
          ∀ stop, Passed r.sectorNumber (r.totalTicks + seekTime disk r.sectorNumber) stop →
            r.totalTicks + ticks ≤ stop) := by
  obtain ⟨hdone, h, htracks⟩ := served_run hrun
  have hticks : 0 ≤ r.totalTicks := le_trans hdone hnow
  refine ⟨htracks.sector, htracks.since, _, _, request_eq h hsector r.totalTicks r.writing,
    computeLatency_pos h hsector r.totalTicks r.writing, fun hint => ⟨?_, ?_⟩⟩
  · exact serve_eq h hsector hnow hint
  · split
    · next hbuffer => exact buffered_pass h hsector hticks hint hnow hbuffer
    · next hbuffer =>
      exact first_pass h hsector hticks hint (Bool.eq_false_iff.mpr hbuffer)

/-- A seek to the second track, and a read from the buffer. -/
def visits : List Request := [⟨10, 40, false⟩, ⟨6000, 37, false⟩]

def visited : Disk := ⟨false, 37, 1000⟩

/-- A write has to wait until the sector has come round. -/
theorem rotating_disk_visits :
    Simulation.run serve (Disk.new, 0) visits = some ([4500, 6500], visited, 6500) ∧
      (headAfter visits).since = 1000 ∧
      ∃ ticks disk', visited.request 9000 38 true = some (ticks, disk') ∧ ticks = 10500 ∧
        Passed 38 9000 19500 ∧ ∀ stop, Passed 38 9000 stop → 19500 ≤ stop := by
  have hrun : Simulation.run serve (Disk.new, 0) visits = some ([4500, 6500], visited, 6500) := by
    decide +kernel
  have hlatency : visited.computeLatency 9000 38 true = 10500 := by
    decide +kernel
  have hbuffer : visited.inTrackBuffer 9000 38 true = false := by
    decide +kernel
  have hseek : seekTime visited 38 = 0 := by
    decide +kernel
  obtain ⟨-, hsince, ticks, disk', hrequest, -, hdone⟩ := rotating_disk hrun (r := ⟨9000, 38, true⟩)
    (by decide) (by decide)
  have hticks : ticks = 10500 := by
    have hfst := congrArg (Option.map Prod.fst) hrequest
    rw [request_eq (served_run hrun).ready (by decide), hlatency] at hfst
    exact (Option.some.inj hfst).symm
  subst hticks
  obtain ⟨-, hpass⟩ := hdone (by decide)
  simp only [hbuffer, Bool.false_eq_true, if_false, hseek] at hpass
  exact ⟨hrun, hsince.symm, 10500, disk', hrequest, rfl, hpass.2.2⟩

end Nachos.DiskTime
