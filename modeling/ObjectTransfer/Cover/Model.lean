import ObjectTransfer.Foundations.Extents
import ObjectTransfer.Foundations.Outcome
import ObjectTransfer.Foundations.Words

/-! # Accepted byte ranges

Bookkeeping for the ranges of an object that were accepted. Extents run from a start to an
exclusive end and are coalesced on commit; a reservation holds a range while its bytes are
written and is refused to later checks until it is committed or released.
-/

namespace ObjectTransfer.Cover
open Foundations

def maxFragments : ℕ := 4096

def fragmentPerBytes : ℕ := 8 * 1024 * 1024

/-- The extents an object of this length may be covered in. -/
def fragmentLimit (objectLen : ℕ) : ℕ := max (objectLen / fragmentPerBytes) maxFragments

inductive Error where
  | emptyRange
  | lengthExceeded
  | partialOverlap
  | reservedOverlap
  | fragmentsExhausted
  deriving DecidableEq, Repr

/-- A checked range; while it is held, nothing else changes the coverage it came from. -/
structure Booking where
  coveredOffset : ℕ
  coveredEnd : ℕ
  nextBytes : ℕ
  deriving DecidableEq, Repr

inductive Check where
  | replay
  | new (booking : Booking)
  deriving DecidableEq, Repr

/-- A range held against later checks and reservations. -/
structure Reservation where
  coveredOffset : ℕ
  coveredEnd : ℕ
  deriving DecidableEq, Repr

inductive Reserve where
  | replay
  | new (reservation : Reservation)
  deriving DecidableEq, Repr

structure Coverage where
  extents : OrderedMap ℕ ℕ
  reserved : OrderedMap ℕ ℕ
  bytes : ℕ
  limit : ℕ
  deriving DecidableEq

def overlaps (map : OrderedMap ℕ ℕ) (coveredOffset coveredEnd : ℕ) : Bool :=
  (map.below? coveredOffset).any (fun p => decide (coveredOffset < p.2)) ||
    (map.ceil? coveredOffset).any fun p => decide (p.1 < coveredEnd)

namespace Coverage

def new : Coverage := ⟨.empty, .empty, 0, maxFragments⟩

def forObject (objectLen : ℕ) : Coverage := ⟨.empty, .empty, 0, fragmentLimit objectLen⟩

def check (coverage : Coverage) (coveredOffset bytes : ℕ) : Except Error Check := do
  rejectIf (bytes = 0) .emptyRange
  let coveredEnd ← okOr (checkedAdd coveredOffset bytes) .lengthExceeded
  let earlier := coverage.extents.floor? coveredOffset
  if earlier.any fun p => decide (p.2 ≥ coveredEnd) then return .replay
  else do
    let later := coverage.extents.ceil? coveredOffset
    rejectIf (earlier.any (fun p => decide (p.2 > coveredOffset)) ∨
      later.any fun p => decide (p.1 < coveredEnd)) .partialOverlap
    rejectIf (overlaps coverage.reserved coveredOffset coveredEnd) .reservedOverlap
    let nextBytes ← okOr (checkedAdd coverage.bytes bytes) .lengthExceeded
    let mergesEarlier := earlier.any fun p => decide (p.2 = coveredOffset)
    let mergesLater := later.any fun p => decide (p.1 = coveredEnd)
    rejectIf (!mergesEarlier ∧ !mergesLater ∧
      coverage.extents.size + coverage.reserved.size ≥ coverage.limit) .fragmentsExhausted
    return .new ⟨coveredOffset, coveredEnd, nextBytes⟩

def insertCoalesced (coverage : Coverage) (coveredOffset coveredEnd : ℕ) : Coverage :=
  { coverage with extents := coalesce coverage.extents coveredOffset coveredEnd }

def commit (coverage : Coverage) (booking : Booking) : Coverage :=
  { coverage with bytes := booking.nextBytes }.insertCoalesced booking.coveredOffset
    booking.coveredEnd

def reserve (coverage : Coverage) (coveredOffset bytes : ℕ) :
    Except Error (Coverage × Reserve) := do
  match ← coverage.check coveredOffset bytes with
  | .replay => return (coverage, .replay)
  | .new booking =>
    return ({ coverage with
        reserved := coverage.reserved.insert coveredOffset booking.coveredEnd },
      .new ⟨coveredOffset, booking.coveredEnd⟩)

def commitReservation (coverage : Coverage) (reservation : Reservation) : Coverage :=
  { coverage with
    reserved := coverage.reserved.erase reservation.coveredOffset
    bytes := saturatingAdd coverage.bytes
      (reservation.coveredEnd - reservation.coveredOffset) }.insertCoalesced
    reservation.coveredOffset reservation.coveredEnd

def releaseReservation (coverage : Coverage) (reservation : Reservation) : Coverage :=
  { coverage with reserved := coverage.reserved.erase reservation.coveredOffset }

/-- The runs entered one by one: `index` and `previousEnd` of the loop, and what it has built. -/
def enterRuns (objectLen limit : ℕ) : List (ℕ × ℕ) → ℕ → Option ℕ → ℕ → OrderedMap ℕ ℕ →
    Except (Abort Error) (OrderedMap ℕ ℕ × ℕ)
  | [], _, _, bytes, extents => return (extents, bytes)
  | (offset, length) :: runs, index, previousEnd, bytes, extents => do
    rejectIf (index ≥ limit) (.error .fragmentsExhausted)
    rejectIf (length = 0) (.error .emptyRange)
    let stop ← okOr (checkedAdd offset length) (.error .lengthExceeded)
    rejectIf (stop > objectLen) (.error .lengthExceeded)
    rejectIf (previousEnd.any fun previous => decide (offset ≤ previous)) (.error .partialOverlap)
    let total ← okOr (checkedAdd bytes length) .panic
    enterRuns objectLen limit runs (index + 1) (some stop) total (extents.insert offset stop)

def fromRuns (objectLen : ℕ) (runs : List (ℕ × ℕ)) : Except (Abort Error) Coverage := do
  let limit := fragmentLimit objectLen
  let built ← enterRuns objectLen limit runs 0 none 0 .empty
  return ⟨built.1, .empty, built.2, limit⟩

def coveredBytes (coverage : Coverage) : ℕ := coverage.bytes

def isComplete (coverage : Coverage) (length : ℕ) : Bool := coverage.bytes = length

end Coverage

end ObjectTransfer.Cover
