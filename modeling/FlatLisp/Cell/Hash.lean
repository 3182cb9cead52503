/-
Module: FlatLisp.Cell.Hash
Purpose: The FNV-1a hash of a symbol's characters, and its folds to two bytes and to one.
Main exports: Hash.fnv1a, Hash.key16, Hash.key8
-/

namespace FlatLisp.Hash

/-- The 32-bit FNV-1a hash. -/
def fnv1a (bytes : List UInt8) : UInt32 :=
  bytes.foldl (fun h b => (h ^^^ b.toUInt32) * 0x01000193) 0x811c9dc5

/-- The hash folded to 16 bits, a key for symbol tables. -/
def key16 (bytes : List UInt8) : UInt16 :=
  let h := fnv1a bytes
  ((h >>> 16) ^^^ h).toUInt16

/-- The hash folded to 8 bits, as symbol headers keep it. -/
def key8 (bytes : List UInt8) : UInt8 :=
  let k := key16 bytes
  ((k >>> 8) ^^^ k).toUInt8

end FlatLisp.Hash
