import LineEditor.Proofs.Session.Truncation
import LineEditor.Proofs.Text.Listing

set_option autoImplicit false
set_option relaxedAutoImplicit false

/-!
# What is printed

What has been written to a device is what it has accepted together with what the buffers in front of
it hold, and no piece of text is lost or comes in the wrong place on its way. So a range of lines
that is printed is written in its printed form behind what has been written before; and if this is
the form of listings, the lines can be read back from it.

## Main definitions

* `LineEditor.Sink.written`: all that has been written.

## Main results

* `LineEditor.Sink.written_send`: what has been written, after some more pieces.
* `LineEditor.Action.written_print`: what has been written, after a range was printed.
* `LineEditor.Action.listing_unambiguous`: lines can be read back from their listings.
-/

namespace LineEditor

open EState

/-! ## What has been written -/

/-- Pieces behind each other are joined to their bytes behind each other. -/
theorem joinPieces_append (pieces more : List (Array UInt8)) :
    joinPieces (pieces ++ more) = joinPieces pieces ++ joinPieces more := by
  rw [joinPieces, List.foldl_append, foldl_append_eq]
  rfl

/-- A single piece is joined to itself. -/
theorem joinPieces_singleton (piece : Array UInt8) : joinPieces [piece] = piece :=
  Array.empty_append

/-- A buffer loses no bytes of the pieces that it takes and keeps their order.

**Proof sketch.** Induction on the pieces, with the buffer that each of them leaves. -/
theorem OutputBuffer.join_acceptAll (b : OutputBuffer) (pieces : List (Array UInt8)) :
    joinPieces (b.acceptAll pieces).2 ++ (b.acceptAll pieces).1.pending =
      b.pending ++ joinPieces pieces := by
  induction pieces generalizing b with
  | nil => simp [acceptAll, joinPieces]
  | cons piece pieces ih =>
    have hpiece := b.join_accept piece
    have hpieces := ih (b.accept piece).1
    simp only [acceptAll]
    rw [joinPieces_append, Array.append_assoc, hpieces, ← Array.append_assoc, hpiece,
      joinPieces_cons, Array.append_assoc]

namespace Sink

/-- What buffers hold. The bytes in the last one came first. -/
def held : List OutputBuffer → Array UInt8
  | [] => #[]
  | b :: buffers => held buffers ++ b.pending

/-- All that has been written: what the device has accepted and what the buffers hold. -/
def written (sink : Sink) : Array UInt8 := sink.delivered ++ held sink.buffers

/-- Buffers lose no bytes of the pieces that go through them and keep their order, whether they are
flushed or not.

**Proof sketch.** Induction on the buffers. What one of them passes on, with what it holds, is what
it held and the pieces, and the next buffer takes what it passes on. A buffer that is flushed passes
on in addition what it holds. -/
theorem join_pass (flushed : Bool) (buffers : List OutputBuffer) (pieces : List (Array UInt8)) :
    joinPieces (pass flushed buffers pieces).2 ++ held (pass flushed buffers pieces).1 =
      held buffers ++ joinPieces pieces := by
  induction buffers generalizing pieces with
  | nil => simp [pass, held]
  | cons b buffers ih =>
    have hb := b.join_acceptAll pieces
    unfold pass
    dsimp only
    cases flushed with
    | false =>
      rw [if_neg Bool.false_ne_true]
      dsimp only [held]
      rw [← Array.append_assoc, ih, Array.append_assoc, hb, Array.append_assoc]
    | true =>
      rw [if_pos rfl]
      dsimp only [held, OutputBuffer.drained]
      rw [Array.append_empty, ih, joinPieces_append, joinPieces_singleton, hb, Array.append_assoc]

/-- **What has been written after some more pieces** are these pieces behind what was written
before.

**Proof sketch.** The buffers lose nothing of the pieces, and the device takes all that comes out of
them, or the step fails. -/
theorem written_send {flushed : Bool} {pieces : List (Array UInt8)} {sink sink' : Sink}
    (h : send flushed pieces sink = .ok () sink') :
    sink'.written = sink.written ++ joinPieces pieces := by
  have hpass := join_pass flushed sink.buffers pieces
  have hwritten : sink'.written = sink.delivered ++
      (joinPieces (pass flushed sink.buffers pieces).2 ++
        held (pass flushed sink.buffers pieces).1) := by
    unfold send at h
    simp only [bind_apply, get_apply, set_apply] at h
    unfold deliver at h
    cases hroom : sink.room with
    | none =>
      simp only [hroom] at h
      cases h
      exact Array.append_assoc
    | some room =>
      simp only [hroom] at h
      split at h
      · cases h
        exact Array.append_assoc
      · cases h
  rw [hwritten, hpass, written, Array.append_assoc]

end Sink

namespace Action

variable {range : LineRange} {mode : PrintMode} {s t : Session}

/-- What has been written after some bytes are these behind what was written before. -/
theorem written_emit {bytes : Line} (h : emit bytes s = .ok () t) :
    t.output.written = s.output.written ++ bytes.toArray := by
  unfold emit onOutput at h
  dsimp only at h
  cases hwrite : Sink.write bytes.toArray s.output with
  | error e output =>
    rw [hwrite] at h
    cases h
  | ok _ output =>
    rw [hwrite] at h
    cases h
    have hsend := Sink.written_send hwrite
    rwa [joinPieces_singleton] at hsend

/-- What has been written after a list of pieces are these behind what was written before.

**Proof sketch.** Induction on the pieces. -/
theorem written_emitAll {pieces : List Line} (h : emitAll pieces s = .ok () t) :
    t.output.written = s.output.written ++ pieces.flatten.toArray := by
  induction pieces generalizing s with
  | nil =>
    cases h
    exact Array.append_empty.symm
  | cons piece pieces ih =>
    obtain ⟨_, s', hpiece, hpieces⟩ := exists_of_bind_ok h
    rw [ih hpieces, written_emit hpiece, List.flatten_cons, ← List.append_toArray,
      Array.append_assoc]

/-- Pieces are written if the device accepts everything.

**Proof sketch.** Induction on the pieces. A device without a limit accepts each of them and still
has no limit. -/
theorem exists_emitAll (pieces : List Line) (hroom : s.output.room = none) :
    ∃ t, emitAll pieces s = .ok () t := by
  induction pieces generalizing s with
  | nil => exact ⟨s, rfl⟩
  | cons piece pieces ih =>
    obtain ⟨output, hsend, houtput⟩ := Sink.send_of_room hroom false [piece.toArray]
    have hemit : emit piece s = .ok () { s with output } := by
      unfold emit onOutput Sink.write
      dsimp only
      rw [hsend]
    obtain ⟨t, ht⟩ := ih (s := { s with output }) houtput
    refine ⟨t, ?_⟩
    rw [emitAll, bind_apply, hemit]
    exact ht

end Action

/-! ## Ranges -/

namespace LineRange

/-- The pieces that a range of lines is written in when it is printed: those of each line, and a
newline behind them. -/
def pieces (range : LineRange) (mode : PrintMode) (lines : Array Line) : List Line :=
  ((range.slice lines).toList.zipIdx (range.first + 1)).flatMap fun (line, number) =>
    mode.pieces number line ++ [[newline]]

/-- The numbers of the lines do not show in a listing. -/
theorem flatten_pieces_listing (range : LineRange) (lines : Array Line) :
    (range.pieces .listing lines).flatten =
      joinLines ((range.slice lines).toList.map escapeLine) := by
  have hlines := List.zipIdx_map_fst (range.first + 1) (range.slice lines).toList
  conv_rhs => rw [← hlines]
  simp only [pieces, PrintMode.pieces, List.flatten_eq_flatMap, List.flatMap_assoc, joinLines,
    List.flatMap_map]
  rfl

end LineRange

namespace Action

variable {range : LineRange} {mode : PrintMode} {s t : Session}

/-- A range is printed by writing its pieces and going to its last line, if it is in the buffer.

**Proof sketch.** The only check is that the range is in the buffer, and it either fails or has no
effect. -/
theorem print_apply (range : LineRange) (mode : PrintMode) (s : Session) :
    print range mode s =
      if range.last < range.first ∨ s.buffer.size ≤ range.last then .error .invalidAddress s
      else (do
        emitAll (range.pieces mode s.buffer.lines)
        onBuffer (LineBuffer.setCurrent range.last)) s := by
  unfold print
  rw [bind_apply, onBuffer_apply, LineBuffer.checkRange_apply]
  by_cases hrange : range.last < range.first ∨ s.buffer.size ≤ range.last
  · rw [if_pos hrange, if_pos hrange]
    rfl
  · rw [if_neg hrange, if_neg hrange]
    rfl

/-- **A printed range is written behind what has been written before.**

**Proof sketch.** A range that is printed has passed the check. Its pieces are then written, and
going to its last line changes nothing of the output. -/
theorem written_print (h : print range mode s = .ok () t) :
    t.output.written = s.output.written ++ (range.pieces mode s.buffer.lines).flatten.toArray := by
  rw [print_apply] at h
  split at h
  · cases h
  · obtain ⟨_, s', hemit, hcurrent⟩ := exists_of_bind_ok h
    have houtput : t.output = s'.output := by
      rw [onBuffer_apply, LineBuffer.setCurrent_apply] at hcurrent
      split at hcurrent <;> cases hcurrent
      rfl
    rw [houtput, written_emitAll hemit]

/-- A range that is in the buffer is printed if the device accepts everything.

**Proof sketch.** The pieces are written without changing the buffer, so that the last line of the
range is still in it when the printing goes there. -/
theorem exists_print (hrange : range.first ≤ range.last) (hlast : range.last < s.buffer.size)
    (hroom : s.output.room = none) : ∃ t, print range mode s = .ok () t := by
  obtain ⟨s', hemit⟩ := exists_emitAll (range.pieces mode s.buffer.lines) hroom
  have hbuffer : s'.buffer = s.buffer :=
    (after_of_ok hemit ▸ (Reports.emitAll _).same s : SameStore s s').buffer
  rw [print_apply, if_neg (by omega), bind_apply, hemit]
  dsimp only
  rw [onBuffer_apply, LineBuffer.setCurrent_apply, hbuffer, if_neg (Nat.not_le.2 hlast)]
  exact ⟨_, rfl⟩

/-- **Lines can be read back from their listings.** A listing is read as the line that it shows, so
that no two lines have the same one; it prints in ASCII, and of its dollar signs only the last one,
which closes it, has an even number of backslashes before it. A range in the buffer is listed if the
device accepts everything; and whenever a range is listed, the lines that are read from what has
been written are those of the range.

**Proof sketch.** What a listing shows has been shown for single lines and for lines behind each
other. What a print in the listing mode writes are the listings of the lines of the range, without
their numbers. -/
theorem listing_unambiguous :
    (∀ line, Listing.line? (escapeLine line) = some line) ∧
    Function.Injective escapeLine ∧
    (∀ line, ∀ b ∈ escapeLine line, Listing.Printable b) ∧
    (∀ line, (escapeLine line).getLast? = some (ascii '$')) ∧
    (∀ line front back, escapeLine line = front ++ ascii '$' :: back →
      (Regex.EndsEven front ↔ back = [])) ∧
    (∀ range s, range.first ≤ range.last → range.last < s.buffer.size → s.output.room = none →
      ∃ t, print range .listing s = .ok () t) ∧
    ∀ range s t, print range .listing s = .ok () t →
      ∃ out : Line, t.output.written = s.output.written ++ out.toArray ∧
        Listing.lines? out = some (range.slice s.buffer.lines).toList := by
  refine ⟨Listing.line?_escapeLine, Listing.escapeLine_injective,
    fun _ _ => Listing.printable_of_mem_escapeLine, Listing.getLast?_escapeLine,
    fun _ _ _ => Listing.endsEven_iff, fun _ _ => exists_print, fun range s t h => ?_⟩
  refine ⟨_, written_print h, ?_⟩
  rw [LineRange.flatten_pieces_listing, Listing.lines?_joinLines]

/-- Two lines out of three are listed. One has a newline and a dollar sign in it; in the other one a
digit follows a byte that is listed by its number, and a backslash stands at the end.

**Proof sketch.** The general statement is applied to the listed range, and to the one dollar sign
that the first line has before its end. -/
theorem listing_unambiguous_digit :
    let s : Session := ⟨.ofLines [[ascii 'a'], [newline, ascii '$'],
      [0x01, ascii '1', ascii '\\']], .script [], .direct none "", .withHome []⟩
    escapeLine [newline, ascii '$'] = Line.ofString "\\012\\" ++ ascii '$' :: [ascii '$'] ∧
      ¬Regex.EndsEven (Line.ofString "\\012\\") ∧
      ∃ t, print ⟨1, 2⟩ .listing s = .ok () t ∧
        ∃ out : Line, t.output.written = s.output.written ++ out.toArray ∧
          Listing.lines? out = some [[newline, ascii '$'], [0x01, ascii '1', ascii '\\']] := by
  intro s
  obtain ⟨-, -, -, -, hdollar, hprint, hlines⟩ := listing_unambiguous
  have hescape : escapeLine [newline, ascii '$'] =
      Line.ofString "\\012\\" ++ ascii '$' :: [ascii '$'] := by decide +kernel
  obtain ⟨t, ht⟩ := hprint ⟨1, 2⟩ s (by decide) (by decide) rfl
  exact ⟨hescape, fun heven => List.cons_ne_nil _ _ ((hdollar _ _ _ hescape).1 heven), t, ht,
    hlines _ s t ht⟩

end Action

end LineEditor
