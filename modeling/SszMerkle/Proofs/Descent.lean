/-
Two ways down one path. A proof gathers the roots beside the path, a graft the nodes beside it, and
both pass through the stand-in of a zero tree as if it were spelled out. So one is there exactly where
the other is, and the tree that a graft makes has the root that the proof's branch leads to.
-/
import SszMerkle.Proofs.Graft
import SszMerkle.Proofs.Provable

namespace SszMerkle

variable {h : Hasher} {s : Store}

/-! ## Steps of a graft -/

namespace Graft

theorem depth_ofSteps (steps : List Graft) : (ofSteps steps).depth = (steps.map depth).sum := by
  suffices above : ∀ upper : Graft, (steps.foldl (fun upper step => comp step upper) upper).depth =
      (steps.map depth).sum + upper.depth by
    simpa [ofSteps, depth] using above identity
  induction steps with
  | nil => simp
  | cons step steps ih =>
    intro upper
    rw [List.foldl_cons, ih, depth_comp, List.map_cons, List.sum_cons]
    omega

@[simp] theorem depth_step (right : Bool) (l r : Node) : (step right l r).depth = 1 := by
  cases right <;> rfl

end Graft

namespace Node

/-! ## What lies beside a path -/

/-- The digests beside a path, the root's children first, with the zero tree that a leaf stands in for
spelled out; or how many steps are left at a leaf that stands in for none. -/
def beside (h : Hasher) : (path : List Bool) → Node → Except Nat (List Root)
  | [], _ => .ok []
  | right :: path, pair _ l r => do
    let below ← (if right then r else l).beside h path
    return (if right then l else r).digest h :: below
  | _ :: path, leaf _ c =>
    if c = zeroRoot h.combine (path.length + 1) then
      .ok ((List.range (path.length + 1)).map (zeroRoot h.combine)).reverse
    else .error (path.length + 1)

variable {target : Gindex} {path : List Bool} {n : Node} {siblings : List Root} {left : Nat}

theorem beside_standIn (path : List Bool) (i : Ident) :
    (leaf i (zeroRoot h.combine path.length)).beside h path =
      .ok ((List.range path.length).map (zeroRoot h.combine)).reverse := by
  cases path with
  | nil => rfl
  | cons right path => exact if_pos rfl

/-- A stand-in has beside a path what the pair of stand-ins has. -/
theorem beside_zero (right : Bool) (path : List Bool) (i : Ident) (serial : Nat) :
    (leaf i (zeroRoot h.combine (path.length + 1))).beside h (right :: path) =
      (pair serial (h.standIn path.length) (h.standIn path.length)).beside h (right :: path) := by
  have below : (h.standIn path.length).beside h path = _ := beside_standIn path _
  refine (beside_standIn (right :: path) i).trans ?_
  simp only [beside, ite_self, below, List.length_cons, List.range_succ, List.map_append,
    List.reverse_append]
  rfl

theorem beside_pair {right : Bool} {path : List Bool} {serial : Nat} {l r : Node}
    {siblings : List Root} (hb : (pair serial l r).beside h (right :: path) = .ok siblings) :
    ∃ below, (if right then r else l).beside h path = .ok below ∧
      siblings = (if right then l else r).digest h :: below := by
  rw [beside] at hb
  cases hbelow : (if right then r else l).beside h path with
  | error _ =>
    rw [hbelow] at hb
    cases hb
  | ok below =>
    rw [hbelow] at hb
    cases hb
    exact ⟨below, rfl, rfl⟩

theorem length_beside : ∀ {path : List Bool} {n : Node} {siblings : List Root},
    n.beside h path = .ok siblings → siblings.length = path.length
  | [], n, _, hb => by
    cases n <;> cases hb <;> rfl
  | _ :: path, .leaf _ c, _, hb => by
    rw [beside] at hb
    split at hb
    · cases hb
      simp
    · cases hb
  | right :: path, .pair serial l r, _, hb => by
    obtain ⟨below, hbelow, rfl⟩ := beside_pair hb
    rw [List.length_cons, length_beside hbelow, List.length_cons]

/-- Gathering roots gives what lies beside the path, lowest first. -/
theorem branch_answers : ∀ {path : List Bool} {n : Node} {s : Store}, n.Clean h s →
    path.length ≤ 64 → Answers h s (n.branch h target path) (match n.beside h path with
      | .ok siblings => .ok siblings.reverse
      | .error left => .error (.navigation target.val left))
  | [], _, _, _, _ => .pure []
  | _ :: path, .leaf _ c, _, _, h64 => by
    rw [List.length_cons] at h64
    simp only [branch, Hasher.zero_eq h64, liftM_ok, pure_bind, beside]
    by_cases hc : c = zeroRoot h.combine (path.length + 1)
    · rw [if_neg (not_not_intro hc), if_pos hc, zeroBranch_ok h64]
      simp only [liftM_ok, List.reverse_reverse]
      exact .pure _
    · rw [if_pos hc, if_neg hc]
      exact .throw_bind rfl
  | right :: path, .pair serial l r, s, hn, h64 => by
    obtain ⟨-, -, hl, hr⟩ := hn
    rw [List.length_cons] at h64
    have next : (if right then r else l).Clean h s := by split <;> assumption
    have sibling : (if right then l else r).Clean h s := by split <;> assumption
    rw [branch, beside]
    -- the sibling is hashed before what is below it, which only grows the store
    refine (root_answers sibling).bind fun t st => ?_
    have below := branch_answers (next.later st) (show path.length ≤ 64 by omega)
    cases hb : (if right then r else l).beside h path with
    | error left =>
      rw [hb] at below
      exact below.bind_error fun _ => rfl
    | ok siblings =>
      rw [hb] at below
      refine below.bind fun u _ => ?_
      simp only [bind, Except.bind, pure, Except.pure, List.reverse_cons]
      exact .pure rfl

/-! ## The graft of the same path -/

theorem seek_of_beside : ∀ {path : List Bool} {n : Node} {siblings : List Root},
    n.beside h path = .ok siblings → ∃ c, (Tree.ofNode n).seek h path = .ok c
  | [], _, _, _ => ⟨_, rfl⟩
  | _ :: path, .leaf _ c, _, hb => by
    rw [beside] at hb
    split at hb
    · rename_i hc
      exact ⟨.zero, if_pos hc⟩
    · cases hb
  | right :: path, .pair serial l r, _, hb => by
    obtain ⟨below, hbelow, -⟩ := beside_pair hb
    obtain ⟨c, hc⟩ := seek_of_beside hbelow
    exact ⟨c, (Tree.seek_ofNode_pair ..).trans hc⟩

/-- Where nothing can be gathered, the graft is refused at the same leaf. -/
theorem stepsInto_of_beside_error : ∀ {path : List Bool} {n : Node} {left : Nat},
    path.length ≤ 64 → n.beside h path = .error left →
      n.stepsInto h target path = .error (.navigation target.val left)
  | [], _, _, _, hb => by cases hb
  | _ :: path, .leaf _ c, left, h64, hb => by
    rw [List.length_cons] at h64
    rw [beside] at hb
    split at hb
    · cases hb
    · rename_i hc
      cases hb
      rw [stepsInto, Hasher.zero_eq h64]
      exact if_neg hc
  | right :: path, .pair serial l r, left, h64, hb => by
    rw [List.length_cons] at h64
    rw [beside] at hb
    cases hbelow : (if right then r else l).beside h path with
    | ok below =>
      rw [hbelow] at hb
      cases hb
    | error left' =>
      rw [hbelow] at hb
      cases hb
      rw [stepsInto, stepsInto_of_beside_error (by omega) hbelow]
      rfl

theorem depth_zeroSteps : ∀ {path : List Bool} {steps : List Graft},
    zeroSteps h path = .ok steps → (steps.map Graft.depth).sum = path.length
  | [], _, e => by
    cases e
    rfl
  | right :: path, _, e => by
    obtain ⟨sibling, -, e⟩ := bind_eq_ok e
    obtain ⟨steps, hsteps, e⟩ := bind_eq_ok e
    cases e
    rw [List.map_cons, List.sum_cons, depth_zeroSteps hsteps, Graft.depth_step, List.length_cons,
      Nat.add_comm]

/-- There is one step for each step of the path. -/
theorem depth_stepsInto : ∀ {path : List Bool} {n : Node} {steps : List Graft},
    n.stepsInto h target path = .ok steps → (steps.map Graft.depth).sum = path.length
  | [], _, _, e => by
    cases e
    rfl
  | _ :: path, .leaf _ c, _, e => by
    obtain ⟨zero, -, e⟩ := bind_eq_ok e
    split at e
    · exact depth_zeroSteps e
    · cases e
  | right :: path, .pair serial l r, _, e => by
    obtain ⟨steps, hsteps, e⟩ := bind_eq_ok e
    cases e
    rw [List.map_cons, List.sum_cons, depth_stepsInto hsteps, Graft.depth_step, List.length_cons,
      Nat.add_comm]

/-- Among pairs only, the steps are those of a plain graft. -/
theorem stepsInto_of_stepsTo : ∀ {path : List Bool} {n : Node} {steps : List Graft},
    n.stepsTo target path = .ok steps → n.stepsInto h target path = .ok steps
  | [], _, _, e => by
    cases e
    rfl
  | _ :: _, .leaf _ _, _, e => by cases e
  | right :: path, .pair serial l r, _, e => by
    obtain ⟨steps, hsteps, e⟩ := bind_eq_ok e
    cases e
    rw [stepsInto, stepsInto_of_stepsTo hsteps]
    rfl

/-! ## The tree that a graft makes -/

theorem Grafted.follow {old new result : Node} (hg : Grafted h path old new result) :
    result.follow target path = .ok new := by
  induction hg with
  | here => rfl
  | left _ ih => exact ih
  | right _ ih => exact ih
  | zero _ ih => exact ih

/-- Its digest is folded from that of the new node along what lay beside the path. -/
theorem Grafted.digest {old new result : Node} (hg : Grafted h path old new result)
    (hb : old.beside h path = .ok siblings) :
    result.digest h = foldPath h path siblings (new.digest h) := by
  induction hg generalizing siblings with
  | here =>
    cases hb
    rfl
  | left _ ih =>
    obtain ⟨below, hbelow, rfl⟩ := beside_pair hb
    rw [Node.digest, ih hbelow]
    rfl
  | right _ ih =>
    obtain ⟨below, hbelow, rfl⟩ := beside_pair hb
    rw [Node.digest, ih hbelow]
    rfl
  | zero _ ih =>
    rw [beside_zero] at hb
    exact ih hb

/-- A path that cannot be followed but has zero trees beside its end leads from zero to the digest. -/
theorem foldPath_of_standIn : ∀ {path : List Bool} {n : Node} {siblings : List Root} {e : Failure},
    n.beside h path = .ok siblings → n.follow target path = .error e →
      foldPath h path siblings .zero = n.digest h
  | [], n, _, _, _, hf => by cases n <;> cases hf
  | right :: path, .leaf _ c, _, _, hb, _ => by
    rw [beside] at hb
    split at hb
    · rename_i hc
      cases hb
      exact (foldPath_zero (right :: path)).trans hc.symm
    · cases hb
  | right :: path, .pair serial l r, _, e, hb, hf => by
    obtain ⟨below, hbelow, rfl⟩ := beside_pair hb
    have hnext : (if right then r else l).follow target path = .error e := hf
    rw [foldPath, foldPath_of_standIn hbelow hnext]
    cases right <;> rfl

/-- The proof of what was replaced gives the root of the tree for the new node. -/
theorem Grafted.rootFor {g : Gindex} {old new result : Node} (hg : 0 < g.val)
    (hgraft : Grafted h g.path old new result) (hb : old.beside h g.path = .ok siblings) (root : Root) :
    Proof.rootFor h ⟨siblings.reverse, root⟩ g (new.digest h) = .ok (result.digest h) := by
  have hlen : siblings.reverse.length = g.depth := by
    rw [List.length_reverse, length_beside hb, Gindex.length_path]
  rw [Proof.rootFor, if_pos hlen, foldBranch_eq_foldPath hg hlen, List.reverse_reverse,
    hgraft.digest hb]

/-! ## Grafts and proofs -/

/-- A graft is there exactly where a proof is, and both are refused at the same leaf. The graft has
the depth of the gindex, and where the gindex needs nothing spelled out it is the plain graft. Applied
to a node it gives the tree with that very node at the gindex and all else shared, whose root is the
one that the proof gives for the node's own. So a zero chunk put into a stand-in leaves the root as it
was. -/
theorem graftInto_agrees_prove {t : Node} {g : Gindex} (hg : 0 < g.val) (ht : t.Clean h s) :
    (∃ left, t.graftInto h g = .error (.navigation g.val left) ∧
      Answers h s (t.prove h g) (.error (.navigation g.val left))) ∨
    ∃ graft p, t.graftInto h g = .ok graft ∧ Answers h s (t.prove h g) (.ok p) ∧
      graft.depth = g.depth ∧ p.root = t.digest h ∧
      (∀ plain, t.graftAt g = .ok plain → plain = graft) ∧
      ∀ u n, u.Tidy → t.Clean h u → n.Clean h u → Gives h u (graft.apply n) fun m v =>
        m.Clean h v ∧ Grafted h g.path t n m ∧ m.get g = .ok n ∧
          Gives h v (n.root h) fun c w => Gives h w (m.root h) fun c' _ =>
            c = n.digest h ∧ p.rootFor h g c = .ok c' ∧
              ∀ e, t.get g = .error e → c = .zero → c' = p.root := by
  have h64 : g.path.length ≤ 64 := by rw [Gindex.length_path]; exact g.depth_lt.le
  -- what lies beside the path decides both
  have gathered : Answers h s (t.branch h g g.path) _ := branch_answers ht h64
  cases hb : t.beside h g.path with
  | error left =>
    rw [hb] at gathered
    refine .inl ⟨left, ?_, gathered.bind_error fun _ => rfl⟩
    rw [graftInto, stepsInto_of_beside_error h64 hb]
    rfl
  | ok siblings =>
    rw [hb] at gathered
    obtain ⟨_, hseek⟩ := seek_of_beside hb
    obtain ⟨graft, hgraft, makes⟩ := graftInto_of_seek hseek
    obtain ⟨steps, hsteps, e⟩ := bind_eq_ok hgraft
    cases e
    refine .inr ⟨_, ⟨siblings.reverse, t.digest h⟩, hgraft, ?_, ?_, rfl, ?_, ?_⟩
    · refine gathered.bind fun u su => ?_
      exact (root_answers (ht.later su)).bind fun _ _ => .pure rfl
    · rw [Graft.depth_ofSteps, depth_stepsInto hsteps, Gindex.length_path]
    · intro plain hplain
      obtain ⟨steps', hsteps', e⟩ := bind_eq_ok hplain
      cases e
      rw [stepsInto_of_stepsTo hsteps', Except.ok.injEq] at hsteps
      rw [hsteps]
    · intro u n hu htu hnu
      refine (makes hu htu hnu).mono ?_
      intro m v uv made
      obtain ⟨hm, grafted⟩ := made
      refine ⟨hm, grafted, grafted.follow, (root_gives (hnu.later uv)).mono ?_⟩
      rintro _ w vw rfl
      refine (root_gives (hm.later vw)).mono ?_
      rintro _ _ _ rfl
      refine ⟨rfl, grafted.rootFor hg hb _, ?_⟩
      intro e hget hzero
      rw [grafted.digest hb, hzero]
      exact foldPath_of_standIn hb hget

/-- Two levels into the stand-in beside a chunk, a zero chunk can be put in and changes no root. -/
theorem graftInto_of_standIn : ∃ (t zero : Node) (s : Store) (graft : Graft) (p : Proof),
    t.graftInto .sha256 ⟨14, by decide⟩ = .ok graft ∧
      Answers .sha256 s (t.prove .sha256 ⟨14, by decide⟩) (.ok p) ∧ graft.depth = 3 ∧
      Gives .sha256 s (graft.apply zero) fun m v => m.get ⟨14, by decide⟩ = .ok zero ∧
        Gives .sha256 v (zero.root .sha256) fun _ w =>
          Gives .sha256 w (m.root .sha256) fun c _ => c = t.digest .sha256 := by
  let zero : Node := Hasher.sha256.standIn 0
  let t : Node := .pair 0 zero (Hasher.sha256.standIn 2)
  let s : Store := ⟨#[t], ∅⟩
  have ht : t.Clean .sha256 s := ⟨rfl, by simp [s], trivial, trivial⟩
  have hs : s.Tidy := by simp [Store.Tidy, s]
  have hget : t.get ⟨14, by decide⟩ = .error (.navigation 14 2) := rfl
  rcases graftInto_agrees_prove (g := ⟨14, by decide⟩) (by decide) ht with
    ⟨left, hnone, -⟩ | ⟨graft, p, hgraft, hprove, hdepth, hroot, -, install⟩
  · have hpath : Gindex.path ⟨14, by decide⟩ = [true, true, false] := rfl
    obtain ⟨_, hsome, -⟩ := graftInto_of_seek (h := .sha256) (n := t) (g := ⟨14, by decide⟩)
      (c := .zero) (by simp [hpath, t, Tree.ofNode, Tree.seek, Hasher.standIn])
    rw [hnone] at hsome
    cases hsome
  · refine ⟨t, zero, s, graft, p, hgraft, hprove, hdepth, (install s zero hs ht trivial).mono ?_⟩
    intro m v _ grafted
    obtain ⟨-, -, hm, hashed⟩ := grafted
    refine ⟨hm, hashed.mono fun c w _ hashed => hashed.mono ?_⟩
    intro c' x _ given
    obtain ⟨hc, -, unchanged⟩ := given
    exact (unchanged _ hget hc).trans hroot

end Node

end SszMerkle
