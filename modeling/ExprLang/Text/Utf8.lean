import ExprLang.Text.Quoted

/-!
# Reading UTF-8

Decoding stops at the first sequence of bytes that is no character. The fault says which bytes
those are: a byte that begins no character, a beginning whose next byte does not continue it, or a
beginning that the end of the data cuts off.
-/

namespace ExprLang.Text

inductive Utf8Problem where
  | badStart
  | badContinuation
  | cutOff
  deriving DecidableEq, Repr

/-- The first bytes that cannot be decoded. -/
structure Utf8Fault where
  offset : Nat
  /-- How many bytes belong to the fault. -/
  length : Nat
  /-- The first of them. -/
  byte : Nat
  problem : Utf8Problem
  deriving DecidableEq, Repr

def Utf8Problem.description : Utf8Problem → String
  | badStart => "invalid start byte"
  | badContinuation => "invalid continuation byte"
  | cutOff => "unexpected end of data"

def Utf8Fault.message (f : Utf8Fault) : String :=
  "'utf-8' codec can't decode "
    ++ (if f.length = 1 then
        "byte 0x" ++ String.ofList (hexDigits 2 f.byte) ++ " in position " ++ toString f.offset
      else
        "bytes in position " ++ toString f.offset ++ "-" ++ toString (f.offset + f.length - 1))
    ++ ": " ++ f.problem.description

namespace Utf8

/-- Whether `b` may follow the first byte of a character. -/
def isContinuation (b : Nat) : Bool := 0x80 ≤ b && b < 0xc0

/-- Whether `b` may come second after `a`: overlong forms, surrogates and what lies beyond the
last code point are ruled out here. -/
def isSecond (a b : Nat) : Bool :=
  isContinuation b && (a != 0xe0 || 0xa0 ≤ b) && (a != 0xed || b < 0xa0)
    && (a != 0xf0 || 0x90 ≤ b) && (a != 0xf4 || b < 0x90)

/-- Decodes the bytes from `offset` on, after the characters of `done` in reverse. -/
def decodeFrom (done : List Char) (offset : Nat) : List Nat → Except Utf8Fault (List Char)
  | [] => .ok done.reverse
  | a :: r =>
    let fault (length : Nat) (problem : Utf8Problem) : Except Utf8Fault (List Char) :=
      .error ⟨offset, length, a, problem⟩
    if a < 0x80 then decodeFrom (Char.ofNat a :: done) (offset + 1) r
    else if a < 0xc2 then fault 1 .badStart
    else if a < 0xe0 then
      match r with
      | [] => fault 1 .cutOff
      | b :: r =>
        if !isSecond a b then fault 1 .badContinuation
        else decodeFrom (Char.ofNat (a % 0x20 * 0x40 + b % 0x40) :: done) (offset + 2) r
    else if a < 0xf0 then
      match r with
      | [] => fault 1 .cutOff
      | [b] => if !isSecond a b then fault 1 .badContinuation else fault 2 .cutOff
      | b :: c :: r =>
        if !isSecond a b then fault 1 .badContinuation
        else if !isContinuation c then fault 2 .badContinuation
        else decodeFrom
          (Char.ofNat (a % 0x10 * 0x1000 + b % 0x40 * 0x40 + c % 0x40) :: done) (offset + 3) r
    else if a < 0xf5 then
      match r with
      | [] => fault 1 .cutOff
      | [b] => if !isSecond a b then fault 1 .badContinuation else fault 2 .cutOff
      | [b, c] =>
        if !isSecond a b then fault 1 .badContinuation
        else if !isContinuation c then fault 2 .badContinuation
        else fault 3 .cutOff
      | b :: c :: d :: r =>
        if !isSecond a b then fault 1 .badContinuation
        else if !isContinuation c then fault 2 .badContinuation
        else if !isContinuation d then fault 3 .badContinuation
        else decodeFrom (Char.ofNat
          (a % 0x08 * 0x40000 + b % 0x40 * 0x1000 + c % 0x40 * 0x40 + d % 0x40) :: done)
          (offset + 4) r
    else fault 1 .badStart

/-- The characters that `bytes` encode. -/
def decode (bytes : List Nat) : Except Utf8Fault (List Char) := decodeFrom [] 0 bytes

end Utf8

end ExprLang.Text
