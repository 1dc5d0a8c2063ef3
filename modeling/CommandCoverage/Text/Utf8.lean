namespace CommandCoverage.Text

inductive Utf8Fault where
  | start
  | continuation
  | ended
  deriving DecidableEq, Repr

def Utf8Fault.reason : Utf8Fault → String
  | start => "invalid start byte"
  | continuation => "invalid continuation byte"
  | ended => "unexpected end of data"

def isContinuation (b : UInt8) : Bool := 0x80 ≤ b && b ≤ 0xbf

def payload (b : UInt8) : Nat := b.toNat % 64

/-- The second byte of a longer form must not make it overlong, a surrogate or too large. -/
def isSecond (first second : UInt8) : Bool :=
  isContinuation second &&
    !(first == 0xe0 && second < 0xa0) && !(first == 0xed && second ≥ 0xa0) &&
    !(first == 0xf0 && second < 0x90) && !(first == 0xf4 && second ≥ 0x90)

def decodeUtf8From : Nat → List UInt8 → Except (Utf8Fault × Nat) (List Char)
  | _, [] => .ok []
  | n, a :: r =>
    if a < 0x80 then (Char.ofNat a.toNat :: ·) <$> decodeUtf8From (n + 1) r
    else if a < 0xc2 || a > 0xf4 then .error (.start, n)
    else
      match r with
      | [] => .error (.ended, n)
      | b :: r =>
        if !isSecond a b then .error (.continuation, n)
        else if a < 0xe0 then
          (Char.ofNat (a.toNat % 32 * 64 + payload b) :: ·) <$> decodeUtf8From (n + 2) r
        else
          match r with
          | [] => .error (.ended, n)
          | c :: r =>
            if !isContinuation c then .error (.continuation, n)
            else if a < 0xf0 then
              (Char.ofNat ((a.toNat % 16 * 64 + payload b) * 64 + payload c) :: ·) <$>
                decodeUtf8From (n + 3) r
            else
              match r with
              | [] => .error (.ended, n)
              | d :: r =>
                if !isContinuation d then .error (.continuation, n)
                else
                  (Char.ofNat
                    (((a.toNat % 8 * 64 + payload b) * 64 + payload c) * 64 + payload d) :: ·) <$>
                    decodeUtf8From (n + 4) r

def unifyLineBreaks : List Char → List Char
  | [] => []
  | '\r' :: '\n' :: r => '\n' :: unifyLineBreaks r
  | '\r' :: r => '\n' :: unifyLineBreaks r
  | c :: r => c :: unifyLineBreaks r

def decodeUtf8 (bytes : List UInt8) : Except (Utf8Fault × Nat) String :=
  (fun cs ↦ String.ofList (unifyLineBreaks cs)) <$> decodeUtf8From 0 bytes

end CommandCoverage.Text
