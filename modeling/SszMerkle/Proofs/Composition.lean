/-
Proofs put together. Every path of at most sixty-three steps is that of exactly one gindex, so what is
proved below a node that is proved itself has a gindex in the whole tree, whose path is the one to the
node and then the one from there. A proof takes no other extension than one that is rooted at the node,
and of two extensions it does not matter which is made first. A chunk that is mixed in puts one step to
the left before the path.
-/
import SszMerkle.Proofs.Branch
import SszMerkle.Proofs.Paths

namespace SszMerkle

variable {h : Hasher}

/-! ## Extensions -/

namespace Proof

variable {p q s t : Proof} {g : Gindex} {m n x : Root} {e : Failure}

theorem verify_iff_shows (hg : 0 < g.val) : p.verify h g x = true ↔ p.Shows h g.path x :=
  (Shows.iff_verifyBranch hg).symm

theorem extend_eq_ok_iff :
    p.extend s n = .ok q ↔ s.root = n ∧ q = ⟨s.branch ++ p.branch, p.root⟩ := by
  unfold extend
  by_cases hr : s.root = n
  · simp [hr, eq_comm]
  · simp [hr]

theorem extend_eq_error_iff :
    p.extend s n = .error e ↔ s.root ≠ n ∧ e = .invalidProof (.rootMismatch s.root n) := by
  unfold extend
  by_cases hr : s.root = n
  · simp [hr]
  · simp [hr, eq_comm]

/-- Extended downward step by step or by what was put together first: the proof is the same. -/
theorem extend_assoc : (p.extend s m >>= fun ps => ps.extend t n) = .ok q ↔
    (s.extend t n >>= fun st => p.extend st m) = .ok q := by
  constructor
  · intro hq
    obtain ⟨ps, hps, hq⟩ := bind_eq_ok hq
    obtain ⟨rfl, rfl⟩ := extend_eq_ok_iff.1 hps
    obtain ⟨rfl, rfl⟩ := extend_eq_ok_iff.1 hq
    rw [extend_eq_ok_iff.2 ⟨rfl, rfl⟩]
    exact extend_eq_ok_iff.2 ⟨rfl, by rw [List.append_assoc]⟩
  · intro hq
    obtain ⟨st, hst, hq⟩ := bind_eq_ok hq
    obtain ⟨rfl, rfl⟩ := extend_eq_ok_iff.1 hst
    obtain ⟨rfl, rfl⟩ := extend_eq_ok_iff.1 hq
    rw [extend_eq_ok_iff.2 ⟨rfl, rfl⟩]
    exact extend_eq_ok_iff.2 ⟨rfl, by rw [List.append_assoc]⟩

/-- Verifying a proof is computing its root. -/
theorem verify_iff_rootFor : p.verify h g x = true ↔ p.rootFor h g x = .ok p.root := by
  unfold verify verifyBranch rootFor
  by_cases hl : p.branch.length = g.depth
  · simp [hl]
  · simp [hl]

/-- Under the chunk that is mixed in, a node has one step to the left before its path. -/
theorem mixIn_verify (hg : 0 < g.val) (hd : g.depth ≤ 62) (hp : p.verify h g x = true) :
    ∃ c : Gindex, 0 < c.val ∧ c.path = false :: g.path ∧
      ∀ chunk, (p.mixIn h chunk).verify h c x = true := by
  obtain ⟨c, hc, hpath⟩ := Gindex.exists_path (false :: g.path) (by simp; omega)
  refine ⟨c, hc, hpath, fun chunk => ?_⟩
  rw [verify_iff_shows hc, hpath]
  exact ((verify_iff_shows hg).1 hp).mixIn chunk

theorem extend_verify {a b : Gindex} (ha : 0 < a.val) (hb : 0 < b.val)
    (hd : a.depth + b.depth ≤ 63) (hp : p.verify h a s.root = true) (hs : s.verify h b x = true) :
    ∃ c : Gindex, 0 < c.val ∧ c.path = a.path ++ b.path ∧
      Proof.verify h ⟨s.branch ++ p.branch, p.root⟩ c x = true := by
  obtain ⟨c, hc, hpath⟩ := Gindex.exists_path (a.path ++ b.path) (by simpa using hd)
  refine ⟨c, hc, hpath, ?_⟩
  rw [verify_iff_shows hc, hpath]
  exact ((verify_iff_shows ha).1 hp).extend ((verify_iff_shows hb).1 hs)

/-- A proof extended by one that is rooted at the node it is for keeps its root and verifies what the
other does, at the path to the node and on from there; no other extension is taken, and three proofs
give the same whichever two are put together first. With a length or a selector mixed in, a proof has the
root with it mixed in and verifies what it did one step to the left of the root. At any gindex at all, a
proof verifies what its root can be computed from. -/
theorem composes (h : Hasher) (p s : Proof) :
    (∀ {a b : Gindex} {r x : Root}, 0 < a.val → 0 < b.val → a.depth + b.depth ≤ 63 →
      p.verify h a r = true → s.verify h b x = true → s.root = r →
      ∃ q, p.extend s r = .ok q ∧ q.root = p.root ∧
        ∃ c : Gindex, 0 < c.val ∧ c.path = a.path ++ b.path ∧ q.verify h c x = true) ∧
    (∀ n e, p.extend s n = .error e ↔ s.root ≠ n ∧ e = .invalidProof (.rootMismatch s.root n)) ∧
    (∀ {t q : Proof} {m n : Root}, (p.extend s m >>= fun ps => ps.extend t n) = .ok q ↔
      (s.extend t n >>= fun st => p.extend st m) = .ok q) ∧
    (∀ {a : Gindex} {x : Root}, 0 < a.val → a.depth ≤ 62 → p.verify h a x = true →
      ∃ c : Gindex, 0 < c.val ∧ c.path = false :: a.path ∧
        (∀ length, (p.mixInLength h length).root = SszMerkle.mixInLength h p.root length ∧
          (p.mixInLength h length).verify h c x = true) ∧
        ∀ selector, (p.mixInSelector h selector).root = SszMerkle.mixInSelector h p.root selector ∧
          (p.mixInSelector h selector).verify h c x = true) ∧
    ∀ g x, p.verify h g x = true ↔ p.rootFor h g x = .ok p.root := by
  refine ⟨?_, fun n e => extend_eq_error_iff, extend_assoc, ?_, fun g x => verify_iff_rootFor⟩
  · rintro a b r x ha hb hd hp hs rfl
    exact ⟨_, extend_eq_ok_iff.2 ⟨rfl, rfl⟩, rfl, extend_verify ha hb hd hp hs⟩
  · intro a x ha hd hp
    obtain ⟨c, hc, hpath, hmixed⟩ := mixIn_verify ha hd hp
    exact ⟨c, hc, hpath, fun length => ⟨rfl, hmixed _⟩, fun selector => ⟨rfl, hmixed _⟩⟩

theorem verify_left (x y : Root) : Proof.verify h ⟨[y], h.combine x y⟩ ⟨2, by decide⟩ x = true :=
  Bool.and_eq_true_iff.2 ⟨rfl, beq_iff_eq.2 rfl⟩

theorem verify_right (x y : Root) : Proof.verify h ⟨[x], h.combine x y⟩ ⟨3, by decide⟩ y = true :=
  Bool.and_eq_true_iff.2 ⟨rfl, beq_iff_eq.2 rfl⟩

/-- A chunk at gindex 2 below the right child of a root is at gindex 6, and the right child itself is at
gindex 5 once a length is mixed in. -/
theorem composes_right_then_left : ∃ p s : Proof, ∃ x : Root,
    p.verify .sha256 ⟨3, by decide⟩ s.root = true ∧ s.verify .sha256 ⟨2, by decide⟩ x = true ∧
      (∃ q, p.extend s s.root = .ok q ∧ q.root = p.root ∧ q.verify .sha256 ⟨6, by decide⟩ x = true) ∧
      (p.mixInLength .sha256 5).verify .sha256 ⟨5, by decide⟩ s.root = true := by
  let x : Root := .ofBytes [1]
  let y : Root := .ofBytes [2]
  let s : Proof := ⟨[y], Hasher.sha256.combine x y⟩
  let p : Proof := ⟨[x], Hasher.sha256.combine x s.root⟩
  have hp : p.verify .sha256 ⟨3, by decide⟩ s.root = true := verify_right x s.root
  have hs : s.verify .sha256 ⟨2, by decide⟩ x = true := verify_left x y
  obtain ⟨below, -, -, mixed, -⟩ := composes .sha256 p s
  refine ⟨p, s, x, hp, hs, ?_, ?_⟩
  · obtain ⟨q, hq, hroot, c, hc, hpath, hverify⟩ :=
      below (a := ⟨3, by decide⟩) (b := ⟨2, by decide⟩) (by decide) (by decide) (by decide) hp hs rfl
    obtain rfl : c = ⟨6, by decide⟩ := Gindex.eq_of_path hc (by decide) (hpath.trans (by decide))
    exact ⟨q, hq, hroot, hverify⟩
  · obtain ⟨c, hc, hpath, hlength, -⟩ := mixed (a := ⟨3, by decide⟩) (by decide) (by decide) hp
    obtain rfl : c = ⟨5, by decide⟩ := Gindex.eq_of_path hc (by decide) (hpath.trans (by decide))
    exact (hlength 5).2

end Proof

end SszMerkle
