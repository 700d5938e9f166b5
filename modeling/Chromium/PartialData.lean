import Mathlib.Data.Set.Basic
import Mathlib.Tactic

/-!
# Partial requests

`net/http/partial_data.cc` and `net/http/http_byte_range.cc`: a request for a range of a resource,
of which the cache has some pieces, is split into sub-ranges that are read one by one.
-/
namespace Chromium.PartialRequest

def kint32max : ℤ := 2 ^ 31 - 1
def kPositionNotSpecified : ℤ := -1

/-- A number as it is kept in an `int32`. -/
def toInt32 (n : ℤ) : ℤ := n.bmod (2 ^ 32)

/-- A suffix has no positions until its bounds are computed; those of the others are read from
the request. -/
structure HttpByteRange where
  first_byte_position : ℤ := kPositionNotSpecified
  last_byte_position : ℤ := kPositionNotSpecified
  suffix_length : ℤ := kPositionNotSpecified
  has_computed_bounds : Bool := false

namespace HttpByteRange
variable (r : HttpByteRange)

def isSuffixByteRange : Bool := r.suffix_length ≠ kPositionNotSpecified
def hasFirstBytePosition : Bool := r.first_byte_position ≠ kPositionNotSpecified
def hasLastBytePosition : Bool := r.last_byte_position ≠ kPositionNotSpecified

def isValid : Bool :=
  if r.suffix_length > 0 then true
  else r.first_byte_position ≥ 0 ∧ (r.last_byte_position = kPositionNotSpecified ∨
    r.last_byte_position ≥ r.first_byte_position)

def computeBounds (size : ℤ) : Bool × HttpByteRange :=
  if size < 0 then (false, r)
  else if r.has_computed_bounds then (false, r)
  else
    let r := { r with has_computed_bounds := true }
    if ¬ r.hasFirstBytePosition ∧ ¬ r.hasLastBytePosition ∧ ¬ r.isSuffixByteRange then
      (true, { r with first_byte_position := 0, last_byte_position := size - 1 })
    else if ¬ r.isValid then (false, r)
    else if r.isSuffixByteRange then
      (true, { r with
        first_byte_position := size - min size r.suffix_length, last_byte_position := size - 1 })
    else if r.first_byte_position < size then
      if r.hasLastBytePosition then
        (true, { r with last_byte_position := min (size - 1) r.last_byte_position })
      else (true, { r with last_byte_position := size - 1 })
    else (false, r)

end HttpByteRange

/-- The object, without the headers and the callbacks. -/
structure PartialData where
  current_range_start : ℤ
  cached_start : ℤ
  resource_size : ℤ
  cached_min_len : ℤ
  byte_range : HttpByteRange := {}
  range_present : Bool := false
  final_range : Bool := false
  sparse_entry : Bool := true
  truncated : Bool := false

namespace PartialData
variable (p : PartialData)

/-- The object that is made for a request with a range. The other fields are not set. -/
def init (r : HttpByteRange) : Option PartialData :=
  let p := { p with
    byte_range := r, range_present := false, final_range := false, sparse_entry := true
    truncated := false }
  if p.byte_range.isValid then
    some { p with resource_size := 0, current_range_start := r.first_byte_position }
  else none

/-- The object that is made for a request without one. -/
def withoutRange : PartialData :=
  { p with
    byte_range := {}, range_present := false, final_range := false, sparse_entry := true
    truncated := false }

/-- `UpdateFromStoredHeaders` for the headers of a stored 206, which have strong validators and
belong to a sparse entry. -/
def updateFromStoredHeaders (length_value : ℤ) : Option PartialData :=
  if length_value ≤ 0 then none else some { p with resource_size := length_value }

def isRequestedRangeOK : Bool × PartialData :=
  let done (p : PartialData) : Bool × PartialData :=
    if p.current_range_start ≥ 0 then (true, p) else (false, { p with current_range_start := 0 })
  if p.byte_range.isValid then
    let r := p.byte_range.computeBounds p.resource_size
    let p := { p with byte_range := r.2 }
    if ¬ r.1 then (false, p)
    else if p.truncated then (true, p)
    else if p.current_range_start < 0 then
      done { p with current_range_start := p.byte_range.first_byte_position }
    else done p
  else
    done { p with
      current_range_start := 0
      byte_range := { p.byte_range with last_byte_position := p.resource_size - 1 } }

def getNextRangeLen : ℤ :=
  let range_len := if p.byte_range.hasLastBytePosition then
    p.byte_range.last_byte_position - p.current_range_start + 1 else kint32max
  toInt32 (if range_len > kint32max then kint32max else range_len)

/-- The cache answers `GetAvailableRange` with a length and a position. -/
def shouldValidateCache (answer : ℤ × ℤ) : ℤ × PartialData :=
  let len := p.getNextRangeLen
  if len = 0 then (0, p)
  else
    let p :=
      if p.sparse_entry then { p with cached_min_len := answer.1, cached_start := answer.2 }
      else if ¬ p.truncated then
        { p with
          cached_min_len := if p.byte_range.hasFirstBytePosition ∧
            p.byte_range.first_byte_position ≥ p.resource_size then 0 else len
          cached_start := p.current_range_start }
      else p
    if p.cached_min_len < 0 then (p.cached_min_len, p) else (1, p)

/-- The result has the positions that `AddRangeHeader` puts into the headers. -/
def prepareCacheValidation : PartialData × ℤ × ℤ :=
  let len := p.getNextRangeLen
  let p := { p with range_present := false }
  let p :=
    if p.cached_min_len = 0 then
      { p with
        final_range := true
        cached_start := if p.byte_range.hasLastBytePosition then p.current_range_start + len
          else 0 }
    else p
  if p.current_range_start = p.cached_start then
    ({ p with
        range_present := true
        final_range := if len = p.cached_min_len then true else p.final_range },
      p.current_range_start, p.cached_start + p.cached_min_len - 1)
  else (p, p.current_range_start, p.cached_start - 1)

def isCurrentRangeCached : Bool := p.range_present

def isLastRange : Bool := p.final_range

def onCacheReadCompleted (result : ℤ) : PartialData :=
  if result > 0 then
    { p with
      current_range_start := p.current_range_start + result
      cached_min_len := p.cached_min_len - result }
  else p

def onNetworkReadCompleted (result : ℤ) : PartialData :=
  if result > 0 then { p with current_range_start := p.current_range_start + result } else p

end PartialData

/-! ### Runs -/

/-- What `GetAvailableRange` of the cache answers for `len` bytes from `offset` on: the first run
of stored bytes, possibly cut short, or that there is none. -/
inductive Answer (stored : Set ℤ) (offset len : ℤ) : ℤ × ℤ → Prop
  | none (start : ℤ) (h : ∀ i, offset ≤ i → i < offset + len → i ∉ stored) :
    Answer stored offset len (0, start)
  | some {n start : ℤ} (hpos : 0 < n) (hstart : offset ≤ start) (hend : start + n ≤ offset + len)
    (hrun : ∀ i, start ≤ i → i < start + n → i ∈ stored)
    (hfirst : ∀ i, offset ≤ i → i < start → i ∉ stored) : Answer stored offset len (n, start)

/-- The bytes of a sub-range are read from the cache or from the network, in any number of
pieces. -/
inductive Reads : PartialData → ℤ → PartialData → Prop
  | done (p : PartialData) : Reads p 0 p
  | cache {p p' : PartialData} {n : ℤ} (result : ℤ) (hle : result ≤ n)
    (h : Reads (p.onCacheReadCompleted result) (n - max 0 result) p') : Reads p n p'
  | network {p p' : PartialData} {n : ℤ} (result : ℤ) (hle : result ≤ n)
    (h : Reads (p.onNetworkReadCompleted result) (n - max 0 result) p') : Reads p n p'

/-- A sub-range as it is announced, and the answer of the cache that it came from. -/
structure Round where
  answer : ℤ × ℤ
  first : ℤ
  last : ℤ
  cached : Bool
  final : Bool

/-- Sub-ranges are announced and read, one after the other. In between what is stored may change
behind the current position. -/
inductive Run : Set ℤ → PartialData → List Round → PartialData → Prop
  | done (stored : Set ℤ) (p : PartialData) : Run stored p [] p
  | round {stored stored' : Set ℤ} {p p₁ p₂ p₃ p' : PartialData} {answer : ℤ × ℤ} {first last : ℤ}
    {rounds : List Round}
    (hanswer : Answer stored p.current_range_start p.getNextRangeLen answer)
    (hshould : p.shouldValidateCache answer = (1, p₁))
    (hprepare : p₁.prepareCacheValidation = (p₂, first, last))
    (hreads : Reads p₂ (last - first + 1) p₃)
    (hstored : ∀ i, p₃.current_range_start ≤ i → (i ∈ stored' ↔ i ∈ stored))
    (hrest : Run stored' p₃ rounds p') :
    Run stored p
      (⟨answer, first, last, p₂.isCurrentRangeCached, p₂.isLastRange⟩ :: rounds) p'

end Chromium.PartialRequest
