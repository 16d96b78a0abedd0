import ContractAudit.Text.Quoted

/-! # Reading UTF-8 -/

namespace ContractAudit.Text

inductive BadBytes where
  | start
  | continuation
  | ending
deriving DecidableEq, Repr

/-- What the first byte of a text leads to, and how many bytes after it belong to that. -/
inductive Decoded where
  | char (c : Char) (more : Nat)
  | bad (cause : BadBytes) (more : Nat)

/-- The bytes that continue a character: how many are owed, the bounds of the next one, the bits
    read so far and how many bytes were taken. -/
def decodeTail : (owed low high bits more : Nat) → List UInt8 → Decoded
  | 0, _, _, bits, more, _ => .char (Char.ofNat bits) more
  | _ + 1, _, _, _, more, [] => .bad .ending more
  | n + 1, low, high, bits, more, b :: s =>
    if low ≤ b.toNat && b.toNat ≤ high then
      decodeTail n 0x80 0xbf (bits * 64 + (b.toNat - 0x80)) (more + 1) s
    else .bad .continuation more

def decodeNext (b : UInt8) (s : List UInt8) : Decoded :=
  let n := b.toNat
  if n < 0x80 then .char (Char.ofNat n) 0
  else if n < 0xc2 then .bad .start 0
  else if n < 0xe0 then decodeTail 1 0x80 0xbf (n - 0xc0) 0 s
  else if n < 0xf0 then
    decodeTail 2 (if n = 0xe0 then 0xa0 else 0x80) (if n = 0xed then 0x9f else 0xbf) (n - 0xe0) 0 s
  else if n < 0xf5 then
    decodeTail 3 (if n = 0xf0 then 0x90 else 0x80) (if n = 0xf4 then 0x8f else 0xbf) (n - 0xf0) 0 s
  else .bad .start 0

/-- The text of bytes, with one replacement character for each bad part. -/
def decodeReplacing : List UInt8 → List Char
  | [] => []
  | b :: s => match decodeNext b s with
    | .char c more => c :: decodeReplacing (s.drop more)
    | .bad _ more => '�' :: decodeReplacing (s.drop more)
termination_by s => s.length
decreasing_by all_goals simp only [List.length_drop, List.length_cons]; omega

structure DecodeError where
  cause : BadBytes
  offset : Nat
  bytes : List UInt8
deriving DecidableEq, Repr

def BadBytes.message : BadBytes → String
  | .start => "invalid start byte"
  | .continuation => "invalid continuation byte"
  | .ending => "unexpected end of data"

def DecodeError.message (e : DecodeError) : String :=
  let place := match e.bytes with
    | [b] => "byte 0x" ++ String.ofList (hexDigits 2 b.toNat) ++ " in position " ++ toString e.offset
    | bs => "bytes in position " ++ toString e.offset ++ "-" ++ toString (e.offset + bs.length - 1)
  "'utf-8' codec can't decode " ++ place ++ ": " ++ e.cause.message

/-- The text of bytes after `offset` others, unless there is a bad part. A character that is cut off
    by the end of the text is looked at on its own, so its place is counted from its own start. -/
def decodeFrom (offset : Nat) : List UInt8 → Except DecodeError (List Char)
  | [] => .ok []
  | b :: s => match decodeNext b s with
    | .char c more => (decodeFrom (offset + more + 1) (s.drop more)).map (c :: ·)
    | .bad .ending more => .error ⟨.ending, 0, b :: s.take more⟩
    | .bad cause more => .error ⟨cause, offset, b :: s.take more⟩
termination_by s => s.length
decreasing_by all_goals simp only [List.length_drop, List.length_cons]; omega

def decode (bytes : List UInt8) : Except DecodeError (List Char) := decodeFrom 0 bytes

def unifyNewlines : List Char → List Char
  | [] => []
  | '\r' :: '\n' :: s => '\n' :: unifyNewlines s
  | c :: s => (if c == '\r' then '\n' else c) :: unifyNewlines s

end ContractAudit.Text
