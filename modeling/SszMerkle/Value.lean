/-
Typed values, nested at will, and the trees they stand for.
-/
import SszMerkle.Provable

namespace SszMerkle

/-- A value of a serializable type. -/
inductive Value where
  /-- A chunk as it is. -/
  | chunk (c : Root)
  /-- A value given by its tree. -/
  | node (n : Node)
  /-- One basic value. It stands for the chunk that it is packed into: its root is that chunk, and a proof
  below it is one of the chunk, since a basic value gives no proofs of its own. -/
  | basic (t : BasicType) (v : t.Carrier)
  | container (fields : List Value)
  | vector (elements : List Value)
  | list (limit : Nat) (elements : List Value)
  | basicVector (t : BasicType) (vs : List t.Carrier)
  | basicList (t : BasicType) (limit : Nat) (vs : List t.Carrier)
  | byteVector (bytes : List UInt8)
  | byteList (limit : Nat) (bytes : List UInt8)
  | bitvector (bits : List UInt8)
  | bitlist (limit : Nat) (bits : List UInt8)
  /-- The variant of a union that has a value. -/
  | union (selector : UInt8) (value : Value)
  /-- The variant of a union that has none. -/
  | emptyUnion (selector : UInt8)
  /-- The roots of `count` values in a tree with room for `limit`, zero where the values run out. -/
  | roots (count limit : Nat) (values : List Value)

namespace Value

mutual

/-- The root and the proofs of a value under a hasher. -/
def provable (h : Hasher) : Value → Provable
  | chunk c => .chunk c
  | node n => .node h n
  | basic t v => .chunk (Chunk.packed t [v] 0)
  | container fields => .container h (provables h fields)
  | vector elements => .vector h (provables h elements)
  | list limit elements => .list h limit (provables h elements)
  | basicVector t vs => .basicVector h t vs
  | basicList t limit vs => .basicList h t limit vs
  | byteVector bytes => .basicVector h .uint8 bytes
  | byteList limit bytes => .basicList h .uint8 limit bytes
  | bitvector bits => .basicVector h .uint8 bits
  | bitlist limit bits => .bitlist h limit bits
  | union selector value => .union h selector (value.provable h)
  | emptyUnion selector => .union h selector (.chunk .zero)
  | roots count limit values =>
    let ps := provables h values
    .flat h count limit fun i => if i < ps.length then Provable.rootAt ps i else return .zero

/-- The same for each value of a list. -/
def provables (h : Hasher) : List Value → List Provable
  | [] => []
  | v :: vs => v.provable h :: provables h vs

end

/-- The root of a value. -/
def root (h : Hasher) (v : Value) : TreeM Root := (v.provable h).root

/-- The proof of the node at a gindex below a value. -/
def prove (h : Hasher) (v : Value) (g : Gindex) : TreeM Proof := (v.provable h).prove g

end Value

end SszMerkle
