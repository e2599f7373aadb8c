import MipModel.Digest.Sha256
import MipModel.Linearization.Construct
import MipModel.Scalar.Binary64
import MipModel.Text.Identifier

/-!
# Names from digests

The naming scheme of binary64 models. A fingerprint is written as bytes, hashed, and the first
twelve hexadecimal digits of the hash end the name; before them stand the construct and the
context, made safe. Coefficients enter bit by bit, so names tell apart numbers that compare equal.
-/

namespace MipModel.Fingerprint

def textBytes (s : String) : List UInt8 := s.toUTF8.data.toList

/-- The eight bytes of a number, least significant first. -/
def numberBytes (x : Float) : List UInt8 :=
  (List.range 8).map fun i => UInt8.ofNat (x.toBits.toNat / Nat.pow 256 i % 256)

/-- A term: each factor followed by a star, the coefficient, and a semicolon. -/
def termBytes (m : Monomial) (c : Float) : List UInt8 :=
  m.names.flatMap (fun name => textBytes name ++ [0x2A]) ++ numberBytes c ++ [0x3B]

def polynomialBytes (p : Polynomial Float) : List UInt8 :=
  p.toList.flatMap fun t => termBytes t.1 t.2

/-- The construct and the context, each followed by a zero byte, the operands, each followed by a
one byte, and the parameters. -/
def bytes (f : Fingerprint Float) : List UInt8 :=
  textBytes f.construct.name ++ [0] ++ textBytes f.context ++ [0] ++
    f.operands.flatMap (fun p => polynomialBytes p ++ [1]) ++ f.parameters.flatMap numberBytes

/-- The first twelve hexadecimal digits of the hash. -/
def digest (f : Fingerprint Float) : String :=
  Sha256.hex ((Sha256.hash f.bytes).take 6)

/-- The construct, the context unless it is empty, and the digest. -/
def name (f : Fingerprint Float) : String :=
  let tag := Identifier.sanitize f.context
  Identifier.join
    (if tag.isEmpty then [f.construct.name, f.digest] else [f.construct.name, tag, f.digest])

instance instNaming : Naming Float := ⟨name⟩

end MipModel.Fingerprint
