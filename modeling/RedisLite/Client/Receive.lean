import RedisLite.Client.Decode
import RedisLite.Client.Send
import RedisLite.Lib.Pieces

/-!
# Receiving a response

`read_full` and `read_res` of `client.cpp` call by call: every call of `read` finds what
has arrived so far.  The result is that of the whole stream, however it was cut.
-/

namespace RedisLite.Client

open Lib

/-- One turn of the loop of `read_full`, with the bytes that are missing, those that were
read and those that are still to arrive.  `read` finds nothing at the end of the stream,
and also when it fails. -/
def readFullTurn : Nat × Bytes × Pieces UInt8 →
    Exec (Step (Nat × Bytes × Pieces UInt8) (Option Bytes × Pieces UInt8))
  | (n, buf, arriving) =>
      if n > 0 then do
        let (piece, arriving) := arriving.read n
        let rv := piece.length
        if rv ≤ 0 then return .done (none, arriving)
        else
          Exec.assert (decide (rv ≤ n))
          return .next (n - rv, buf ++ piece, arriving)
      else .ok (.done (some buf, arriving))

/-- `read_full`: the bytes read, or `none` when it returns -1, and what is still to arrive. -/
def readFullPieces (arriving : Pieces UInt8) (n : Nat) : Exec (Option Bytes × Pieces UInt8) :=
  loop readFullTurn (n + 1) (n, [], arriving)

/-- `read_res` on a stream that arrives in pieces. -/
def readResPieces (arriving : Pieces UInt8) : Exec ((Int × List Visit) × Pieces UInt8) := do
  let (header, arriving) ← readFullPieces arriving 4
  match header with
  | none => return ((-1, []), arriving)
  | some header =>
      let len := LittleEndian.decode header
      if len > kMaxMsg then return ((-1, []), arriving)
      else
        let (body, arriving) ← readFullPieces arriving len
        match body with
        | none => return ((-1, []), arriving)
        | some body =>
            let (rv, visits) ← printResponse (len + 1) body
            if rv > 0 ∧ rv ≠ len then return ((-1, visits ++ [.bad]), arriving)
            else return ((rv, visits), arriving)

/-- `main` once it is connected: the bytes that it has sent, or `none` when `send_req`
fails, and the lines that it prints. -/
def main (wbuf : Bytes) (cmd : List Bytes) (write : Nat → Nat → Int) (arriving : Pieces UInt8) :
    Exec (Option Bytes × List Visit) := do
  match ← sendReq wbuf cmd write with
  | none => return (none, [])
  | some sent =>
      let ((_, visits), _) ← readResPieces arriving
      return (some sent, visits)

/-- `read_full` reads the next bytes of the stream, or all of them when there are too few. -/
theorem readFullPieces_spec (arriving : Pieces UInt8) (n : Nat) :
    Exec.Returns (readFullPieces arriving n) fun out =>
      readFull arriving.whole n = out.1.map (fun bytes => (bytes, out.2.whole)) ∧
      (out.1 = none → out.2.whole = []) := by
  refine loop_returns
    (fun state : Nat × Bytes × Pieces UInt8 => state.1 + state.2.1.length = n ∧
      state.2.1 ++ state.2.2.whole = arriving.whole)
    (fun state => state.1) ?_ _ _ ⟨rfl, rfl⟩ (Nat.lt_succ_self _)
  rintro ⟨missing, buf, rest⟩ ⟨count, whole⟩
  have count : missing + buf.length = n := count
  have whole : buf ++ rest.whole = arriving.whole := whole
  by_cases more : missing > 0
  · have parts := rest.read_append missing
    have bound := rest.length_read_le missing
    simp only [readFullTurn, if_pos more]
    by_cases ends : (rest.read missing).1.length ≤ 0
    · have nothing : (rest.read missing).1 = [] := List.length_eq_zero_iff.mp (by omega)
      have atEnd : rest.whole = [] := by
        by_contra some
        exact Pieces.read_ne_nil more some nothing
      rw [nothing, List.nil_append, atEnd] at parts
      rw [if_pos ends, Exec.pure_eq_ok, Exec.returns_ok]
      refine ⟨?_, fun _ => parts⟩
      rw [readFull, ← whole, atEnd, List.append_nil, if_neg (by omega)]
      rfl
    · rw [if_neg ends, Exec.assert_of bound, Exec.ok_bind, Exec.pure_eq_ok, Exec.returns_ok]
      refine ⟨⟨?_, ?_⟩, ?_⟩
      · simp only [List.length_append]
        omega
      · simp only [List.append_assoc]
        rw [parts, whole]
      · show missing - (rest.read missing).1.length < missing
        omega
  · simp only [readFullTurn, if_neg more, Exec.returns_ok, Step.holds_done]
    refine ⟨?_, fun absent => absurd absent (Option.some_ne_none buf)⟩
    rw [readFull, ← whole, if_pos (by simp only [List.length_append]; omega),
      List.take_left' (by omega), List.drop_left' (by omega)]
    rfl

/-- `read_res` does not depend on how the stream was cut.  It does on any pieces what it does
on the whole stream, faults included, and it leaves what follows the frame. -/
theorem readRes_pieces (arriving : Pieces UInt8) :
    ∃ rest : Pieces UInt8,
      readResPieces arriving = (readRes arriving.whole >>= fun out => .ok (out, rest)) ∧
      ∀ body more, body.length ≤ kMaxMsg → arriving.whole = frame body ++ more →
        rest.whole = more := by
  obtain ⟨⟨header, afterHeader⟩, headerCall, headerEq, headerEnd⟩ :=
    readFullPieces_spec arriving 4
  have headerEq : readFull arriving.whole 4 =
    header.map (fun bytes => (bytes, afterHeader.whole)) := headerEq
  rw [readResPieces, readRes, headerEq, headerCall, Exec.ok_bind]
  cases header with
  | none =>
      refine ⟨afterHeader, rfl, ?_⟩
      intro body more _ whole
      rw [whole, readFull_frame] at headerEq
      cases headerEq
  | some header =>
      have frameHeader : ∀ body more : Bytes, body.length ≤ kMaxMsg →
          arriving.whole = frame body ++ more → LittleEndian.decode header = body.length ∧
            afterHeader.whole = body ++ more := by
        intro body more small whole
        rw [whole, readFull_frame, Option.map_some, Option.some.injEq, Prod.mk.injEq] at headerEq
        rw [← headerEq.1]
        exact ⟨LittleEndian.decode_encode_of_lt (by unfold kMaxMsg at small; omega),
          headerEq.2.symm⟩
      simp only [Option.map_some]
      by_cases long : LittleEndian.decode header > kMaxMsg
      · rw [if_pos long, if_pos long]
        refine ⟨afterHeader, rfl, ?_⟩
        intro body more small whole
        have length := (frameHeader body more small whole).1
        omega
      · rw [if_neg long, if_neg long]
        obtain ⟨⟨body, afterBody⟩, bodyCall, bodyEq, bodyEnd⟩ :=
          readFullPieces_spec afterHeader (LittleEndian.decode header)
        have bodyEq : readFull afterHeader.whole (LittleEndian.decode header) =
          body.map (fun bytes => (bytes, afterBody.whole)) := bodyEq
        rw [bodyEq, bodyCall, Exec.ok_bind]
        refine ⟨afterBody, ?_, ?_⟩
        · cases body with
          | none => rfl
          | some body =>
              simp only [Option.map_some]
              cases printResponse (LittleEndian.decode header + 1) body with
              | error fault => rfl
              | ok result =>
                  simp only [Exec.ok_bind]
                  split <;> rfl
        · intro expected more small whole
          obtain ⟨length, afterEq⟩ := frameHeader expected more small whole
          rw [afterEq, length, readFull, if_pos (by simp), List.drop_left] at bodyEq
          cases body with
          | none => cases bodyEq
          | some body => exact (congrArg Prod.snd (Option.some.inj bodyEq)).symm

end RedisLite.Client
