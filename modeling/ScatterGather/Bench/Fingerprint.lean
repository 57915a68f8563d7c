/-! # Text for bytes

Hexadecimal text of a run of bytes, and a 64-bit hash that stands for a long run.
-/
namespace ScatterGather.Bench

def hexDigit (n : Nat) : Char := if n < 10 then Char.ofNat (48 + n) else Char.ofNat (87 + n)

def hexText (l : List UInt8) : String :=
  String.ofList (l.flatMap fun b => [hexDigit (b.toNat / 16), hexDigit (b.toNat % 16)])

def wordBytesHigh (w : UInt64) : List UInt8 :=
  (List.range 8).map fun i => UInt8.ofNat (w.toNat >>> (8 * (7 - i)))

/-- The FNV-1a hash: each byte is mixed in, then the whole is multiplied by a prime. -/
def fnv1a (l : List UInt8) : UInt64 :=
  l.foldl (fun h b => (h ^^^ b.toUInt64) * 0x100000001b3) 0xcbf29ce484222325

end ScatterGather.Bench
