/-
The pairs of roots that a streaming pass hands to the hasher. A visit of a node that was hashed names
the two roots it was combined from, and they are the reference roots of its children; a visit that
names none settles a leaf, or a zero tree past the leaves taken. So above every leaf taken the pass
hands over the reference roots of two siblings at each level, and nothing between the leaves and the
root of the pass goes unseen.
-/
import SszMerkle.Proofs.Frontier

namespace SszMerkle

variable {h : Hasher} {leaf : Nat → Root} {n : Nat}

theorem Hasher.eq_zeroRoot {d : Nat} {c : Root} (hc : h.zero d = .ok c) :
    c = zeroRoot h.combine d := by
  unfold zero at hc
  split at hc
  · cases hc
    exact h.zeros.getElem_roots d _
  · cases hc

/-- The visit names the roots of the children of its node; one that names none settles a leaf or a
node past the first `n` leaves. -/
def Visit.Accounted (h : Hasher) (leaf : Nat → Root) (n : Nat) (v : Visit) : Prop :=
  match v.parts with
  | some parts => ∃ l, v.level = l + 1 ∧
    parts = (Padded.node h leaf l (2 * v.position), Padded.node h leaf l (2 * v.position + 1))
  | none => v.level = 0 ∨ n ≤ v.position * 2 ^ v.level

theorem Visit.accounted_above {l p : Nat} {a b : Root} (ha : a = Padded.node h leaf l (2 * p))
    (hb : b = Padded.node h leaf l (2 * p + 1)) : (Visit.above h (l + 1) p a b).Accounted h leaf n :=
  ⟨l, rfl, by rw [ha, hb]; rfl⟩

namespace Frontier

variable {pad : Nat} {f : Frontier}

def Accounted (h : Hasher) (leaf : Nat → Root) (n : Nat) (visits : List Visit) : Prop :=
  ∀ v ∈ visits, v.Accounted h leaf n

@[simp] theorem accounted_nil : Accounted h leaf n [] := by simp [Accounted]

@[simp] theorem accounted_cons {v : Visit} {vs : List Visit} :
    Accounted h leaf n (v :: vs) ↔ v.Accounted h leaf n ∧ Accounted h leaf n vs := by
  simp [Accounted]

@[simp] theorem accounted_append {vs ws : List Visit} :
    Accounted h leaf n (vs ++ ws) ↔ Accounted h leaf n vs ∧ Accounted h leaf n ws := by
  simp [Accounted, or_imp, forall_and]

/-! ## Step by step -/

/-- A carry combines the node with its sibling at each level, kept or zero. Where it pads, no leaf of
the first `n` lies right of the node. -/
theorem carry_accounted : ∀ {stack out : List Root} {level p : Nat} {node : Root} {visits : List Visit},
    carry h pad level p node stack = .ok (out, visits) → Kept h leaf level p stack →
      node = Padded.node h leaf level p →
      (level < pad → n ≤ (p + 1) * 2 ^ level ∧ ∀ i, (p + 1) * 2 ^ level ≤ i → leaf i = .zero) →
      Accounted h leaf n visits
  | kept :: above, out, level, p, node, visits, hc, hk, hn, hpad => by
    have hpad' : level + 1 < pad →
        n ≤ (p / 2 + 1) * 2 ^ (level + 1) ∧ ∀ i, (p / 2 + 1) * 2 ^ (level + 1) ≤ i → leaf i = .zero := by
      intro hl
      obtain ⟨hle, hz⟩ := hpad (by omega)
      have : (p / 2 + 1) * 2 ^ (level + 1) = (2 * (p / 2) + 2) * 2 ^ level := by ring
      have : (p + 1) * 2 ^ level ≤ (2 * (p / 2) + 2) * 2 ^ level := Nat.mul_le_mul_right _ (by omega)
      exact ⟨by omega, fun i hi => hz i (by omega)⟩
    rcases carry_cases hc with ⟨hodd, out', visits', hr, rfl, rfl⟩ |
      ⟨heven, hl, zero, out', visits', h0, hr, rfl, rfl⟩ | ⟨-, -, rfl, rfl⟩
    · have left : kept = Padded.node h leaf level (2 * (p / 2)) := by
        rw [hk.1 hodd, show 2 * (p / 2) = p - 1 by omega]
      have right : node = Padded.node h leaf level (2 * (p / 2) + 1) := by
        rw [hn, show 2 * (p / 2) + 1 = p by omega]
      have up : h.combine kept node = Padded.node h leaf (level + 1) (p / 2) := by
        rw [left, right, Padded.node]
      exact accounted_cons.2 ⟨Visit.accounted_above left right, carry_accounted hr hk.2 up hpad'⟩
    · obtain ⟨hle, hz⟩ := hpad hl
      have left : node = Padded.node h leaf level (2 * (p / 2)) := by
        rw [hn, show 2 * (p / 2) = p by omega]
      have right : zero = Padded.node h leaf level (2 * (p / 2) + 1) := by
        rw [Hasher.eq_zeroRoot h0, show 2 * (p / 2) + 1 = p + 1 by omega, Padded.node_eq_zeroRoot hz]
      have up : h.combine node zero = Padded.node h leaf (level + 1) (p / 2) := by
        rw [left, right, Padded.node]
      exact accounted_cons.2 ⟨.inr hle, accounted_cons.2
        ⟨Visit.accounted_above left right, carry_accounted hr hk.2 up hpad'⟩⟩
    · exact accounted_nil

theorem absorb_accounted {f' : Frontier} {r : Root} {visits : List Visit}
    (ha : f.absorb r = .ok (f', visits)) (hk : Kept f.hasher leaf 0 f.count f.stack)
    (hr : leaf f.count = r) : Accounted f.hasher leaf n visits := by
  unfold absorb at ha
  obtain ⟨⟨stack, carried⟩, hc, ha⟩ := bind_eq_ok ha
  obtain ⟨count, -, ha⟩ := bind_eq_ok ha
  cases ha
  exact accounted_cons.2 ⟨.inl rfl, carry_accounted hc hk hr.symm fun hl => absurd hl (Nat.not_lt_zero 0)⟩

theorem absorbAll_accounted : ∀ {rs : List Root} {f f' : Frontier} {visits : List Visit}, f.Ready →
    f.count + rs.length ≤ f.limit → Kept f.hasher leaf 0 f.count f.stack →
    (∀ i (hi : i < rs.length), leaf (f.count + i) = rs[i]) → absorbAll rs f = .ok (f', visits) →
    Accounted f.hasher leaf n visits
  | [], f, f', visits, _, _, _, _, ha => by
    cases ha
    exact accounted_nil
  | r :: rs, f, f', visits, hf, room, hk, hl, ha => by
    rw [List.length_cons] at room
    obtain ⟨stack, now, hr, hf', -⟩ := absorb_ok hf (by omega) r
    have first := hl 0 (by simp)
    obtain ⟨hk', -⟩ := absorb_keeps hr hk first
    unfold absorbAll at ha
    obtain ⟨taken, hr', ha⟩ := bind_eq_ok ha
    rw [hr] at hr'
    cases hr'
    obtain ⟨⟨f'', later⟩, hrest, e⟩ := bind_eq_ok ha
    cases e
    have hl' : ∀ i (hi : i < rs.length), leaf (f.count + 1 + i) = rs[i] := fun i hi => by
      have := hl (i + 1) (by simpa using hi)
      rw [List.getElem_cons_succ] at this
      rw [← this, Nat.add_right_comm, Nat.add_assoc]
    have room' : f.count + 1 + rs.length ≤ f.limit := by omega
    have rest := absorbAll_accounted hf' room' hk' hl' hrest
    exact accounted_append.2 ⟨absorb_accounted hr hk first, rest⟩

theorem rise_accounted : ∀ {levels level : Nat} {top root : Root} {visits : List Visit},
    rise h level levels top = .ok (root, visits) → top = Padded.node h leaf level 0 →
      n ≤ 2 ^ level → (∀ i, 2 ^ level ≤ i → leaf i = .zero) → Accounted h leaf n visits
  | 0, level, top, root, visits, hr, _, _, _ => by
    cases hr
    exact accounted_nil
  | levels + 1, level, top, root, visits, hr, ht, hn, hz => by
    unfold rise at hr
    obtain ⟨zero, h0, hr⟩ := bind_eq_ok hr
    obtain ⟨⟨root', above⟩, hrise, e⟩ := bind_eq_ok hr
    cases e
    have right : zero = Padded.node h leaf level 1 := by
      rw [Hasher.eq_zeroRoot h0, Padded.node_eq_zeroRoot fun i hi => hz i (by simpa using hi)]
    have up : h.combine top zero = Padded.node h leaf (level + 1) 0 := by rw [ht, right, Padded.node]
    have wider : 2 ^ level ≤ 2 ^ (level + 1) := Nat.pow_le_pow_right (by norm_num) (by omega)
    refine accounted_cons.2 ⟨.inr (by simpa [Visit.given] using hn), accounted_cons.2
      ⟨Visit.accounted_above ht right, rise_accounted hrise up (by omega) fun i hi => hz i (by omega)⟩⟩

/-! ## A whole pass -/

section Finish

variable (hf : f.Ready) (hk : Kept f.hasher leaf 0 f.count f.stack)
  (hz : ∀ i, f.count ≤ i → leaf i = .zero)
include hk hz

theorem complete_accounted {stack : List Root} {visits : List Visit}
    (hc : f.complete = .ok (stack, visits)) : Accounted f.hasher leaf f.count visits := by
  unfold complete at hc
  split at hc
  · cases hc
    exact accounted_nil
  · obtain ⟨zero, h0, hc⟩ := bind_eq_ok hc
    obtain ⟨⟨stack', carried⟩, hcarry, e⟩ := bind_eq_ok hc
    cases e
    have node : zero = Padded.node f.hasher leaf 0 f.count := by
      rw [Hasher.eq_zeroRoot h0, Padded.node, hz _ le_rfl, zeroRoot]
    refine accounted_cons.2 ⟨.inl rfl, carry_accounted hcarry hk node fun _ => ?_⟩
    rw [pow_zero, mul_one]
    exact ⟨by omega, fun i hi => hz i (by omega)⟩

include hf

theorem finish_accounted {root : Root} {visits : List Visit} (hr : f.finish = .ok (root, visits)) :
    Accounted f.hasher leaf f.count visits := by
  obtain ⟨stack, completed, hc, completes⟩ := complete_ok hf hk hz
  unfold finish at hr
  rw [hc] at hr
  simp only [bind, Except.bind, completes.top] at hr
  obtain ⟨⟨root', risen⟩, hrise, e⟩ := bind_eq_ok hr
  cases e
  have room := Word.le_two_pow_depthFor f.count
  exact accounted_append.2 ⟨complete_accounted hk hz hc,
    rise_accounted hrise rfl room fun i hi => hz i (room.trans hi)⟩

end Finish

theorem pass_accounted {limit : Nat} (hl : limit < Word.bound) {rs : List Root} (hrs : rs.length ≤ limit)
    {f : Frontier} {visits more : List Visit} {root : Root}
    (ha : absorbAll rs (start h limit) = .ok (f, visits)) (hm : f.finish = .ok (root, more)) :
    Accounted h (Padded.row rs) rs.length (visits ++ more) := by
  have room : (start h limit).count + rs.length ≤ (start h limit).limit := by simpa [start] using hrs
  have ready := start_ready h hl
  have kept := kept_start h (Padded.row rs) (start h limit).stack 0
  have leaves : ∀ i (hi : i < rs.length), Padded.row rs ((start h limit).count + i) = rs[i] := by
    intro i hi
    simp [start, Padded.row, hi]
  obtain ⟨stack, visits', ha', hf, hk, -⟩ := absorbAll_ok ready room kept leaves
  rw [ha'] at ha
  cases ha
  have count : (start h limit).count + rs.length = rs.length := Nat.zero_add _
  have sealed := finish_accounted hf hk (fun i hi => Padded.row_of_le (count ▸ hi)) hm
  simp only [count] at sealed
  exact accounted_append.2 ⟨absorbAll_accounted ready room kept leaves ha', sealed⟩

end Frontier

/-! ## The pairs of a pass -/

/-- Of every node above one of the first `n` leaves, the roots of its two children are among the
pairs. -/
def Padded.Hashed (h : Hasher) (leaf : Nat → Root) (depth n : Nat) (pairs : List (Root × Root)) : Prop :=
  ∀ l x, l + 1 ≤ depth → x * 2 ^ (l + 1) < n →
    (node h leaf l (2 * x), node h leaf l (2 * x + 1)) ∈ pairs

/-- The pass of `merkleize` with a watcher that writes down each pair of roots handed to the hasher. -/
def merkleizeTraced {m : Type → Type} [Monad m] (h : Hasher) (count limit : Nat)
    (leaf : Nat → ExceptT Failure m Root) : ExceptT Failure m (Root × List (Root × Root)) := do
  let (f, pairs) ← Frontier.feed (fun pairs v => .ok (pairs ++ v.parts.toList)) leaf (min count limit)
    (.start h limit) []
  let (root, visits) ← f.finish
  return (root, pairs ++ visits.filterMap Visit.parts)

theorem foldlM_parts : ∀ (vs : List Visit) (pairs : List (Root × Root)),
    vs.foldlM (fun pairs v => (.ok (pairs ++ v.parts.toList) : Result (List (Root × Root)))) pairs =
      .ok (pairs ++ vs.filterMap Visit.parts)
  | [], pairs => by simp; rfl
  | v :: vs, pairs => by
    rw [List.foldlM_cons]
    show vs.foldlM _ (pairs ++ v.parts.toList) = _
    rw [foldlM_parts vs, List.append_assoc]
    cases hv : v.parts <;> simp [hv]

section Traced

variable {m : Type → Type} [Monad m] [LawfulMonad m]

theorem mapM_pure_of {α β : Type} {f : α → m β} {g : α → β} :
    ∀ {l : List α}, (∀ a ∈ l, f a = pure (g a)) → l.mapM f = pure (l.map g)
  | [], _ => rfl
  | a :: l, e => by
    rw [List.mapM_cons, e a (by simp), pure_bind, mapM_pure_of fun b hb => e b (List.mem_cons_of_mem a hb),
      pure_bind]
    rfl

/-- Leaves that are at hand where they are asked for are hashed to the reference root, and the pass
hands over the children's roots of every node above one of them. -/
theorem merkleize_traced (h : Hasher) {count limit : Nat} (hl : limit < Word.bound)
    (hc : count ≤ limit) {leaf : Nat → ExceptT Failure m Root} {r : Nat → Root}
    (hleaf : ∀ i < count, leaf i = pure (r i)) : ∃ pairs,
      merkleize h count limit leaf =
        pure (Padded.root h (Word.depthFor limit) (Padded.clip count r)) ∧
      merkleizeTraced h count limit leaf =
        pure (Padded.root h (Word.depthFor limit) (Padded.clip count r), pairs) ∧
      Padded.Hashed h (Padded.clip count r) (Word.depthFor limit) count pairs := by
  have asked : (List.range (min count limit)).mapM leaf = pure ((List.range count).map r) := by
    rw [Nat.min_eq_left hc]
    exact mapM_pure_of fun i hi => hleaf i (List.mem_range.1 hi)
  have hlen : ((List.range count).map r).length = count := by simp
  have row : Padded.row ((List.range count).map r) = _ := Padded.row_map_range count
  obtain ⟨f, visits, more, ha, hm, hw, -, hs⟩ := Frontier.pass_ok h hl (hlen.le.trans hc)
  have accounted := Frontier.pass_accounted hl (hlen.le.trans hc) ha hm
  rw [hlen, row] at accounted
  rw [hlen] at hs
  refine ⟨(visits ++ more).filterMap Visit.parts, ?_, ?_, fun l x hx hlt => ?_⟩
  · rw [merkleize_eq h count hl, asked, pure_bind, row]
  · have accepts := Frontier.accepts_of_ok (Word.depthFor limit)
      fun (pairs : List (Root × Root)) v => pairs ++ v.parts.toList
    rw [merkleizeTraced, Frontier.feed_start leaf hl (Nat.min_le_right ..) accepts trivial, asked,
      pure_bind, Frontier.watchAll_ok ha (foldlM_parts visits []), liftM_ok, pure_bind]
    simp only [hm, liftM_ok, pure_bind, row, List.nil_append, List.filterMap_append]
  · -- a node above a leaf is visited, and not as a leaf or past the leaves
    obtain ⟨v, hv, hvl, hvx⟩ := hs (l + 1) x hx hlt
    have hacc := accounted v hv
    unfold Visit.Accounted at hacc
    refine List.mem_filterMap.2 ⟨v, hv, ?_⟩
    split at hacc
    · rename_i parts hparts
      obtain ⟨l', hl', rfl⟩ := hacc
      obtain rfl : l' = l := by omega
      rw [hparts, hvx]
    · rcases hacc with hacc | hacc
      · omega
      · rw [hvl, hvx] at hacc
        omega

end Traced

end SszMerkle
