import AnySync.Go.Basic

/-!
# Generated protobuf encoders

The values of fields, as the encoders that `protoc-gen-go-vtproto` generates write them.
-/

namespace Wire

/-- The loop of `protohelpers.EncodeVarint`. -/
def encodeVarintLoop : ℕ → ℕ → Bytes
  | 0, v => [UInt8.ofNat v]
  | fuel + 1, v =>
    if v < 0x80 then [UInt8.ofNat v]
    else UInt8.ofNat (v % 0x80 + 0x80) :: encodeVarintLoop fuel (v / 0x80)

/-- `protohelpers.EncodeVarint` of a `uint64`, which has at most ten groups of seven bits. -/
def encodeVarint (v : ℕ) : Bytes := encodeVarintLoop 9 v

/-- A varint with its tag; zero is left out. -/
def encodeUint (tag : UInt8) (v : ℕ) : Bytes := if v = 0 then [] else tag :: encodeVarint v

/-- Bytes with their tag and length; an empty slice is left out. -/
def encodeBytes (tag : UInt8) (b : Bytes) : Bytes :=
  if b = [] then [] else tag :: encodeVarint b.length ++ b

end Wire
