import Mathlib.Data.List.Sort
import Notely.Engine.Chunker
import Notely.Engine.Domain

/-! # Preparing a transcript

`preprocess/`. A copy of the transcript is cleaned (`normalize`) and cut into chunks of whole segments
(`chunk_segments`); the transcript itself is kept as it is. -/

namespace Notely.Engine.Preprocess

open Notely.Lib.Strings Notely.Lib.Utf8 Notely.Engine.Domain
open Notely.Engine.Chunker (trim)

/-- `ChunkingConfig`. -/
structure ChunkingConfig where
  maxChars : ℕ := 6000
  contextChars : ℕ := 400
  deriving DecidableEq

/-- `f64::max`: the other number when one is NaN. -/
def F64.max : F64 → F64 → F64
  | .nan, y => y
  | x, .nan => x
  | .num x, .num y => if x ≤ y then .num y else .num x

/-- `partial_cmp(…).unwrap_or(Equal)` is not `Greater`. -/
def F64.notGreater : F64 → F64 → Prop
  | .num x, .num y => x ≤ y
  | _, _ => True

instance : DecidableRel F64.notGreater
  | .num x, .num y => inferInstanceAs (Decidable (x ≤ y))
  | .nan, _ => isTrue trivial
  | .num _, .nan => isTrue trivial

/-! ### Normalizing -/

/-- `collapse_whitespace`. -/
def collapseWhitespace (s : Text) : Text :=
  [' '].intercalate ((s.splitOnP whiteSpace).filter fun w => ! w.isEmpty)

/-- One segment cleaned; none if it has no text. -/
def normalizeSegment (seg : TranscriptSegment) : Option TranscriptSegment :=
  let text := collapseWhitespace seg.text
  let start := F64.max seg.start (.num 0)
  if text = [] then none else some { seg with start := start, «end» := F64.max seg.end start, text := text }

/-- `normalize`. -/
def normalize (raw : Transcript) : Transcript where
  segments := (raw.segments.filterMap normalizeSegment).insertionSort fun a b => F64.notGreater a.start b.start

/-! ### Cutting -/

/-- `Chunk`. -/
structure Chunk where
  id : Text
  index : ℕ
  segmentStart : ℕ
  segmentEnd : ℕ
  start : F64
  «end» : F64
  text : Text
  segments : List TranscriptSegment
  precedingContext : Option Text := none
  followingContext : Option Text := none
  deriving DecidableEq

/-- `segments_to_text`. -/
def segmentsToText (segments : List TranscriptSegment) : Text :=
  trimEndBy whiteSpace <| segments.flatMap fun seg =>
    seg.speakerId.getD "Unknown".toList ++ ": ".toList ++ trim seg.text ++ ['\n']

/-- The bytes a segment is counted for. -/
def segLen (seg : TranscriptSegment) : ℕ := (encode (trim seg.text)).length + 1

/-- The first pass of `chunk_segments` from segment `i` on, with the range gathered. -/
def rangesFrom (maxChars i rangeStart currentLen : ℕ) : List TranscriptSegment → List (ℕ × ℕ)
  | [] => [(rangeStart, i)]
  | seg :: segs =>
    if i ≠ rangeStart ∧ maxChars < currentLen + segLen seg then
      (rangeStart, i) :: rangesFrom maxChars (i + 1) i (segLen seg) segs
    else rangesFrom maxChars (i + 1) rangeStart (currentLen + segLen seg) segs

/-- The chunk of a range. -/
def toChunk (segments : List TranscriptSegment) (index : ℕ) (range : ℕ × ℕ) : Chunk :=
  let slice := (segments.take range.2).drop range.1
  { id := "chunk-".toList ++ Nat.toDigits 10 index
    index := index
    segmentStart := range.1
    segmentEnd := range.2
    start := (slice.head?.map (·.start)).getD (.num 0)
    «end» := (slice.getLast?.map (·.end)).getD (.num 0)
    text := segmentsToText slice
    segments := slice }

/-- `tail`. -/
def tail (s : Text) (n : ℕ) : Text := if s.length ≤ n ∨ n = 0 then s else s.drop (s.length - n)

/-- `head`. -/
def head (s : Text) (n : ℕ) : Text := s.take n

/-- The context of chunk `i` taken from its neighbours. -/
def attachContext (texts : List Text) (n i : ℕ) (c : Chunk) : Chunk :=
  { c with
    precedingContext := if 0 < i then (texts[i - 1]?).map (tail · n) else none
    followingContext := (texts[i + 1]?).map (head · n) }

/-- `chunk_segments`. -/
def chunkSegments (segments : List TranscriptSegment) (config : ChunkingConfig) : List Chunk :=
  if segments = [] then []
  else
    let chunks := (rangesFrom (max config.maxChars 1) 0 0 0 segments).mapIdx (toChunk segments)
    if config.contextChars = 0 then chunks
    else chunks.mapIdx (attachContext (chunks.map Chunk.text) config.contextChars)

/-- `PreparedTranscript`. -/
structure PreparedTranscript where
  raw : Transcript
  normalized : Transcript
  chunks : List Chunk

/-- `prepare`. -/
def prepare (raw : Transcript) (config : ChunkingConfig) : PreparedTranscript where
  raw := raw
  normalized := normalize raw
  chunks := chunkSegments (normalize raw).segments config

end Notely.Engine.Preprocess
