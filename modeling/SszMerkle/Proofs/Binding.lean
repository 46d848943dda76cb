/-
What the root of a list binds. Two passes over equally many leaves that end in one root hand the same
pair of roots to the hasher at every node above a leaf, from the root down, or two different pairs of
one digest. The length that is mixed in tells apart what zeros past the end would not, and packing
loses nothing but the length, so a list root is the root of one list, or gives a collision.
-/
import SszMerkle.Proofs.Bits
import SszMerkle.Proofs.Collision
import SszMerkle.Proofs.Hashes
import SszMerkle.Proofs.Value

namespace SszMerkle

variable {h : Hasher}

/-! ## Rows of leaves -/

/-- Where the pairs of two passes do not collide, one root means one row of leaves. -/
theorem Padded.Hashed.binds {leaf leaf' : Nat → Root} {depth n : Nat} {ps qs : List (Root × Root)}
    (hp : Hashed h leaf depth n ps) (hq : Hashed h leaf' depth n qs) (hn : n ≤ 2 ^ depth)
    (e : root h depth leaf = root h depth leaf') :
    (∀ i < n, leaf i = leaf' i) ∨ ∃ p ∈ ps, ∃ q ∈ qs, h.Collides p q := by
  by_cases collision : ∃ p ∈ ps, ∃ q ∈ qs, h.Collides p q
  · exact .inr collision
  -- from the root down: what is equal at one level has equal children, above a leaf of the row
  have nodes : ∀ k l x, l + k = depth → x * 2 ^ l < n → node h leaf l x = node h leaf' l x := by
    intro k
    induction k with
    | zero =>
      intro l x hl hx
      rw [Nat.add_zero] at hl
      subst hl
      have hx0 : x = 0 := by
        have : x * 2 ^ l < 1 * 2 ^ l := by omega
        have := Nat.lt_of_mul_lt_mul_right this
        omega
      rw [hx0]
      exact e
    | succ k ih =>
      intro l x hl hx
      have above : x / 2 * 2 ^ (l + 1) < n := by
        have : x / 2 * 2 ^ (l + 1) = x / 2 * 2 * 2 ^ l := by ring
        have : x / 2 * 2 * 2 ^ l ≤ x * 2 ^ l := Nat.mul_le_mul_right _ (by omega)
        omega
      have parent := ih (l + 1) (x / 2) (by omega) above
      have hmem := hp l (x / 2) (by omega) above
      have hmem' := hq l (x / 2) (by omega) above
      by_cases hpair : (node h leaf l (2 * (x / 2)), node h leaf l (2 * (x / 2) + 1)) =
          (node h leaf' l (2 * (x / 2)), node h leaf' l (2 * (x / 2) + 1))
      · obtain ⟨left, right⟩ := Prod.mk.inj hpair
        rcases Nat.mod_two_eq_zero_or_one x with hx | hx
        · rwa [show 2 * (x / 2) = x by omega] at left
        · rwa [show 2 * (x / 2) + 1 = x by omega] at right
      · exact absurd ⟨_, hmem, _, hmem', hpair, parent⟩ collision
  exact .inl fun i hi => nodes depth 0 i (Nat.zero_add _) (by simpa using hi)

/-! ## Lists -/

namespace Provable

/-- The root of a row of leaves with a length mixed in, and the pairs handed to the hasher for it. -/
def mixedTraced (h : Hasher) (count limit : Nat) (leaf : Nat → TreeM Root) (length : Nat) :
    TreeM (Root × List (Root × Root)) := do
  let (content, pairs) ← merkleizeTraced h count limit leaf
  return (mixInLength h content length, pairs ++ [(content, Chunk.ofLength length)])

def listTraced (h : Hasher) (limit : Nat) (elements : List Provable) :
    TreeM (Root × List (Root × Root)) :=
  mixedTraced h elements.length limit (rootAt elements) elements.length

def basicListTraced (h : Hasher) (t : BasicType) (limit : Nat) (vs : List t.Carrier) :
    TreeM (Root × List (Root × Root)) :=
  mixedTraced h (Chunk.countOf t vs.length) (Chunk.countOf t limit)
    (fun i => return Chunk.packed t vs i) vs.length

def bitlistTraced (h : Hasher) (limit : Nat) (bits : List UInt8) : TreeM (Root × List (Root × Root)) :=
  let size := Bitlist.size bits
  mixedTraced h (Chunk.countOfBits size) (Chunk.countOfBits limit)
    (fun i => return Chunk.ofBitlist bits size i) size

/-- Two root computations succeed, and with them those that write down the pairs handed to the hasher.
If both give one root, then `same`, or a pair of the first collides with one of the second. -/
def Binds (h : Hasher) (x y : TreeM Root) (xTraced yTraced : TreeM (Root × List (Root × Root)))
    (same : Prop) : Prop :=
  ∃ a ps b qs, x = pure a ∧ xTraced = pure (a, ps) ∧ y = pure b ∧ yTraced = pure (b, qs) ∧
    (a = b → same ∨ ∃ p ∈ ps, ∃ q ∈ qs, h.Collides p q)

/-- Rows under one limit whose number follows from the length mixed in. -/
theorem mixed_binds {limit count count' length length' : Nat} (hl : limit < Word.bound)
    (hc : count ≤ limit) (hc' : count' ≤ limit) (hlen : length < Word.bound)
    (hlen' : length' < Word.bound) {leaf leaf' : Nat → TreeM Root} {r r' : Nat → Root}
    (hleaf : ∀ i < count, leaf i = pure (r i)) (hleaf' : ∀ i < count', leaf' i = pure (r' i))
    (hcount : length = length' → count = count') {same : Prop}
    (hsame : length = length' → (∀ i < count, r i = r' i) → same) :
    Binds h (merkleize h count limit leaf >>= fun c => pure (h.combine c (Chunk.ofLength length)))
      (merkleize h count' limit leaf' >>= fun c => pure (h.combine c (Chunk.ofLength length')))
      (mixedTraced h count limit leaf length) (mixedTraced h count' limit leaf' length') same := by
  obtain ⟨ps, hroot, htraced, hps⟩ := merkleize_traced h hl hc hleaf
  obtain ⟨qs, hroot', htraced', hqs⟩ := merkleize_traced h hl hc' hleaf'
  generalize hcontent : Padded.root h (Word.depthFor limit) (Padded.clip count r) = content
    at hroot htraced
  generalize hcontent' : Padded.root h (Word.depthFor limit) (Padded.clip count' r') = content'
    at hroot' htraced'
  refine ⟨mixInLength h content length, ps ++ [(content, Chunk.ofLength length)],
    mixInLength h content' length', qs ++ [(content', Chunk.ofLength length')], ?_, ?_, ?_, ?_,
    fun e => ?_⟩
  · rw [hroot, pure_bind]
    rfl
  · rw [mixedTraced, htraced, pure_bind]
  · rw [hroot', pure_bind]
    rfl
  · rw [mixedTraced, htraced', pure_bind]
  -- the last pair of each has the length on its right
  by_cases hpair : (content, Chunk.ofLength length) = (content', Chunk.ofLength length')
  · obtain ⟨contents, hlength⟩ := Prod.mk.inj hpair
    have hn := Chunk.ofLength_inj hlen hlen' hlength
    have hn' := hcount hn
    subst hn'
    have room := hc.trans (Word.le_two_pow_depthFor limit)
    rw [← contents, ← hcontent] at hcontent'
    rcases hps.binds hqs room hcontent'.symm with leaves | ⟨p, hp, q, hq, hpq⟩
    · refine .inl (hsame hn fun i hi => ?_)
      have := leaves i hi
      rwa [Padded.clip, Padded.clip, if_pos hi, if_pos hi] at this
    · exact .inr ⟨p, List.mem_append_left _ hp, q, List.mem_append_left _ hq, hpq⟩
  · exact .inr ⟨_, List.mem_append_right _ (List.mem_singleton_self _), _,
      List.mem_append_right _ (List.mem_singleton_self _), hpair, e⟩

section Kinds

variable {limit : Nat} (hl : limit < Word.bound)
include hl

theorem list_binds {rs rs' : List Root} (hr : rs.length ≤ limit) (hr' : rs'.length ≤ limit) :
    Binds h (list h limit (rs.map .chunk)).root (list h limit (rs'.map .chunk)).root
      (listTraced h limit (rs.map .chunk)) (listTraced h limit (rs'.map .chunk)) (rs = rs') := by
  have leaves : ∀ cs : List Root, ∀ i < (cs.map Provable.chunk).length,
      rootAt (cs.map .chunk) i = pure (cs.getD i .zero) := by
    intro cs i hi
    rw [List.length_map] at hi
    simp [rootAt, hi, chunk]
  rw [← List.length_map Provable.chunk] at hr hr'
  refine mixed_binds hl hr hr' (hr.trans_lt hl) (hr'.trans_lt hl) (leaves rs) (leaves rs') id
    fun hlen e => ?_
  rw [List.length_map, List.length_map] at hlen
  apply List.ext_getElem hlen
  intro i hi hi'
  have := e i (by simpa using hi)
  simpa [hi, hi'] using this

theorem basicList_binds (t : BasicType) {vs ws : List t.Carrier} (hv : vs.length ≤ limit)
    (hw : ws.length ≤ limit) :
    Binds h (basicList h t limit vs).root (basicList h t limit ws).root (basicListTraced h t limit vs)
      (basicListTraced h t limit ws) (vs = ws) := by
  exact mixed_binds (Value.countOf_lt hl) (Chunk.groups_mono t.perChunk_pos hv)
    (Chunk.groups_mono t.perChunk_pos hw) (hv.trans_lt hl) (hw.trans_lt hl) (fun _ _ => rfl)
    (fun _ _ => rfl) (fun e => by rw [e]) fun hlen e => Chunk.packed_inj hlen e

theorem bitlist_binds {bits bits' : List UInt8} (hb : Bitlist.check bits limit = .ok ())
    (hb' : Bitlist.check bits' limit = .ok ()) :
    Binds h (bitlist h limit bits).root (bitlist h limit bits').root (bitlistTraced h limit bits)
      (bitlistTraced h limit bits') (bits = bits') := by
  obtain ⟨-, -, -, -, hn⟩ := Bitlist.eq_concat_of_check hb
  obtain ⟨-, -, -, -, hn'⟩ := Bitlist.eq_concat_of_check hb'
  have pos : 0 < 256 := by decide
  exact mixed_binds (lt_of_le_of_lt (Value.groups_le limit pos) hl) (Chunk.groups_mono pos hn)
    (Chunk.groups_mono pos hn') (hn.trans_lt hl) (hn'.trans_lt hl) (fun _ _ => rfl) (fun _ _ => rfl)
    (fun e => by rw [e]) fun hsize e => Chunk.ofBitlist_inj hb hb' hsize e

end Kinds

/-- Under one limit, lists of roots, lists of values of one basic type and bitlists that pass the
check have different roots if they differ, unless two pairs of roots that hashing the two of them hands
to the hasher differ and have one digest. -/
theorem list_roots_bind (h : Hasher) {limit : Nat} (hl : limit < Word.bound) :
    (∀ rs rs' : List Root, rs.length ≤ limit → rs'.length ≤ limit →
      Binds h (list h limit (rs.map .chunk)).root (list h limit (rs'.map .chunk)).root
        (listTraced h limit (rs.map .chunk)) (listTraced h limit (rs'.map .chunk)) (rs = rs')) ∧
    (∀ (t : BasicType) (vs ws : List t.Carrier), vs.length ≤ limit → ws.length ≤ limit →
      Binds h (basicList h t limit vs).root (basicList h t limit ws).root (basicListTraced h t limit vs)
        (basicListTraced h t limit ws) (vs = ws)) ∧
    ∀ bits bits' : List UInt8, Bitlist.check bits limit = .ok () → Bitlist.check bits' limit = .ok () →
      Binds h (bitlist h limit bits).root (bitlist h limit bits').root (bitlistTraced h limit bits)
        (bitlistTraced h limit bits') (bits = bits') :=
  ⟨fun _ _ hr hr' => list_binds hl hr hr', fun t _ _ hv hw => basicList_binds hl t hv hw,
    fun _ _ hb hb' => bitlist_binds hl hb hb'⟩

/-- A list and the same list with a zero more have the same content root, and still two roots or a
collision. -/
theorem list_roots_of_trailing_zero : 9 < Word.bound ∧
    Binds .sha256 (basicList .sha256 .uint64 9 [(5 : UInt64)]).root
      (basicList .sha256 .uint64 9 [(5 : UInt64), (0 : UInt64)]).root
      (basicListTraced .sha256 .uint64 9 [(5 : UInt64)])
      (basicListTraced .sha256 .uint64 9 [(5 : UInt64), (0 : UInt64)]) False := by
  have hl : 9 < Word.bound := by decide
  obtain ⟨a, ps, b, qs, ha, hps, hb, hqs, e⟩ := (list_roots_bind .sha256 hl).2.1 .uint64
    [(5 : UInt64)] [(5 : UInt64), (0 : UInt64)] (by decide) (by decide)
  refine ⟨hl, a, ps, b, qs, ha, hps, hb, hqs, fun h => ?_⟩
  rcases e h with same | collision
  · cases same
  · exact .inr collision

end Provable

end SszMerkle
