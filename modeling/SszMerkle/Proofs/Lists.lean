/-
Any number of lists over one store, asked in any order: each behaves as a plain vector of nodes of its
own. One request is answered by the lists and by the vectors alike and leaves them alike, whatever
was shared or hashed before; so a whole run is. What happens to the store between the requests is
open, as long as nodes are only made, and hashed under the one hasher.
-/
import SszMerkle.Proofs.MerkleList

namespace SszMerkle

/-! ## Requests -/

/-- A request to the lists of a program, which are numbered in the order they came to be. -/
inductive ListRequest where
  | create (limit : Nat)
  | clone (list : Nat)
  | append (list : Nat) (n : Node)
  | pop (list : Nat)
  | get (list i : Nat)
  | set (list i : Nat) (n : Node)
  | length (list : Nat)
  | root (list : Nat)

inductive ListReply where
  | done
  | node (n : Node)
  | length (n : Nat)
  | root (c : Root)

inductive ListAnswer where
  | reply (r : ListReply)
  | refused (cause : Failure)
  /-- There is no such list. -/
  | absent

/-- Limits can be addressed, and the nodes handed over are clean. -/
def ListRequest.Fair (h : Hasher) (s : Store) : ListRequest → Prop
  | create limit => limit ≤ 2 ^ 62
  | append _ n => n.Clean h s
  | set _ _ n => n.Clean h s
  | _ => True

/-- The list that a request goes to. -/
def ListRequest.list? : ListRequest → Option Nat
  | create _ => none
  | clone _ => none
  | append list _ => some list
  | pop list => some list
  | get list _ => some list
  | set list _ _ => some list
  | length list => some list
  | root list => some list

/-- The lists of a program and the store they share. -/
structure Lists where
  store : Store
  lists : List MerkleList

namespace Lists

/-- Asks one list. If it fails the lists stay as they are. -/
def ask (c : Lists) (list : Nat) (x : MerkleList → TreeM (ListReply × MerkleList)) :
    ListAnswer × Lists :=
  match c.lists[list]? with
  | none => (.absent, c)
  | some l =>
    match (x l).run.run c.store with
    | (.ok (a, l'), s) => (.reply a, ⟨s, c.lists.set list l'⟩)
    | (.error e, s) => (.refused e, ⟨s, c.lists⟩)

/-- Answers a request. -/
def serve (h : Hasher) (c : Lists) : ListRequest → ListAnswer × Lists
  | .create limit =>
    match (MerkleList.empty h limit).run.run c.store with
    | (.ok l, s) => (.reply .done, ⟨s, c.lists ++ [l]⟩)
    | (.error e, s) => (.refused e, ⟨s, c.lists⟩)
  | .clone list =>
    match c.lists[list]? with
    | none => (.absent, c)
    | some l => (.reply .done, ⟨c.store, c.lists ++ [l]⟩)
  | .append list n => c.ask list fun l => return (.done, ← l.append n)
  | .pop list => c.ask list fun l => do
    let (x, l) ← l.pop
    return (.node x, l)
  | .get list i => c.ask list fun l => return (.node (← l.get i), l)
  | .set list i n => c.ask list fun l => return (.done, ← l.set i n)
  | .length list => c.ask list fun l => return (.length l.length, l)
  | .root list => c.ask list fun l => return (.root (← l.root), l)

/-- The runs from an empty store, each with what was asked and answered. Between requests nodes may
be made, and hashed. -/
inductive Run (h : Hasher) : Lists → List (ListRequest × ListAnswer) → Prop
  | start : Run h ⟨.empty, []⟩ []
  | elsewhere {c history s} : Run h c history → c.store.Later h s → Run h ⟨s, c.lists⟩ history
  | request {c history} (req) : Run h c history → req.Fair h c.store →
      Run h (c.serve h req).2 (history ++ [(req, (c.serve h req).1)])

/-- The same from any lists on. -/
inductive Continues (h : Hasher) (first : Lists) : Lists → List (ListRequest × ListAnswer) → Prop
  | start : Continues h first first []
  | elsewhere {c history s} : Continues h first c history → c.store.Later h s →
      Continues h first ⟨s, c.lists⟩ history
  | request {c history} (req) : Continues h first c history → req.Fair h c.store →
      Continues h first (c.serve h req).2 (history ++ [(req, (c.serve h req).1)])

end Lists

/-! ## Vectors -/

/-- A plain vector of nodes. -/
structure NodeVector where
  limit : Nat
  elements : List Node

namespace NodeVector

def append (v : NodeVector) (n : Node) : ListAnswer × NodeVector :=
  if v.elements.length < v.limit then (.reply .done, ⟨v.limit, v.elements ++ [n]⟩)
  else (.refused (.overCapacity (v.elements.length + 1) v.limit), v)

def pop (v : NodeVector) : ListAnswer × NodeVector :=
  match v.elements.getLast? with
  | some x => (.reply (.node x), ⟨v.limit, v.elements.dropLast⟩)
  | none => (.refused (.outOfBounds 0 0), v)

def get (v : NodeVector) (i : Nat) : ListAnswer × NodeVector :=
  match v.elements[i]? with
  | some x => (.reply (.node x), v)
  | none => (.refused (.outOfBounds i v.elements.length), v)

def set (v : NodeVector) (i : Nat) (n : Node) : ListAnswer × NodeVector :=
  if i < v.elements.length then (.reply .done, ⟨v.limit, v.elements.set i n⟩)
  else (.refused (.outOfBounds i v.elements.length), v)

/-- Asks one vector. -/
def ask (vs : List NodeVector) (list : Nat) (f : NodeVector → ListAnswer × NodeVector) :
    ListAnswer × List NodeVector :=
  match vs[list]? with
  | none => (.absent, vs)
  | some v => ((f v).1, vs.set list (f v).2)

/-- Answers a request from vectors alone. -/
def serve (h : Hasher) (vs : List NodeVector) : ListRequest → ListAnswer × List NodeVector
  | .create limit => (.reply .done, vs ++ [⟨limit, []⟩])
  | .clone list =>
    match vs[list]? with
    | none => (.absent, vs)
    | some v => (.reply .done, vs ++ [v])
  | .append list n => ask vs list (·.append n)
  | .pop list => ask vs list (·.pop)
  | .get list i => ask vs list (·.get i)
  | .set list i n => ask vs list (·.set i n)
  | .length list => ask vs list fun v => (.reply (.length v.elements.length), v)
  | .root list => ask vs list fun v => (.reply (.root (MerkleList.vectorRoot h v.limit v.elements)), v)

/-- Answers requests one after the other. -/
def replay (h : Hasher) : List ListRequest → List NodeVector → List ListAnswer × List NodeVector
  | [], vs => ([], vs)
  | req :: reqs, vs =>
    let (a, vs) := serve h vs req
    let (as, vs) := replay h reqs vs
    (a :: as, vs)

end NodeVector

/-! ## One request -/

namespace Lists

variable {h : Hasher} {c : Lists} {vs : List NodeVector}

/-- Each list holds its own vector. -/
structure Mirrors (h : Hasher) (c : Lists) (vs : List NodeVector) : Prop where
  tidy : c.store.Tidy
  holds : List.Forall₂ (fun l v => l.Holds h c.store v.limit v.elements) c.lists vs

theorem Mirrors.later {s : Store} (hc : c.Mirrors h vs) (later : c.store.Later h s) :
    Mirrors h ⟨s, c.lists⟩ vs :=
  ⟨hc.tidy.later later, hc.holds.imp fun _ _ hl => hl.later later⟩

/-- The outcome of asking a list is that of asking its vector. -/
def Agrees (h : Hasher) (v : NodeVector) (out : ListAnswer × NodeVector)
    (r : Result (ListReply × MerkleList)) (s : Store) : Prop :=
  match r with
  | .ok (a, l) => .reply a = out.1 ∧ l.Holds h s out.2.limit out.2.elements
  | .error e => out = (.refused e, v)

/-- Where asking any list agrees with asking its vector, the lists mirror the vectors again. -/
theorem ask_mirrors (hc : c.Mirrors h vs) {x : MerkleList → TreeM (ListReply × MerkleList)}
    {f : NodeVector → ListAnswer × NodeVector} (list : Nat)
    (hx : ∀ l v, l.Holds h c.store v.limit v.elements → Ends h c.store (x l) (Agrees h v (f v))) :
    (c.ask list x).1 = (NodeVector.ask vs list f).1 ∧
      (c.ask list x).2.Mirrors h (NodeVector.ask vs list f).2 := by
  unfold ask NodeVector.ask
  rcases Nat.lt_or_ge list c.lists.length with hi | hi
  · have hi' : list < vs.length := by rw [← hc.holds.length_eq]; exact hi
    rw [List.getElem?_eq_getElem hi, List.getElem?_eq_getElem hi']
    have hl : c.lists[list].Holds h c.store vs[list].limit vs[list].elements :=
      (List.forall₂_iff_get.1 hc.holds).2 list hi hi'
    obtain ⟨r, s, hrun, later, -, hr⟩ := hx _ _ hl trivial
    have hc' := hc.later later
    simp only [hrun]
    cases r with
    | error e =>
      -- a failed operation gives no list back, and the vector stays as well
      have hf : f vs[list] = (.refused e, vs[list]) := hr
      simp only [hf, List.set_getElem_self]
      exact ⟨trivial, hc'⟩
    | ok out =>
      obtain ⟨a, l'⟩ := out
      exact ⟨hr.1, hc'.tidy, forall₂_set hc'.holds hr.2 list⟩
  · have hi' : vs.length ≤ list := by rw [← hc.holds.length_eq]; exact hi
    rw [List.getElem?_eq_none hi, List.getElem?_eq_none hi']
    exact ⟨rfl, hc⟩

/-- A request is answered alike by lists and vectors, and leaves them alike. -/
theorem serve_mirrors (hc : c.Mirrors h vs) {req : ListRequest} (fair : req.Fair h c.store) :
    (c.serve h req).1 = (NodeVector.serve h vs req).1 ∧
      (c.serve h req).2.Mirrors h (NodeVector.serve h vs req).2 := by
  cases req with
  | create limit =>
    have created := MerkleList.empty_succeeds (h := h) hc.tidy fair
    obtain ⟨l, s, hrun, later, hl, -⟩ := created.exists_run trivial
    rw [serve, hrun]
    have hc' := hc.later later
    exact ⟨rfl, hc'.tidy, List.rel_append hc'.holds (.cons hl .nil)⟩
  | clone list =>
    unfold serve NodeVector.serve
    rcases Nat.lt_or_ge list c.lists.length with hi | hi
    · have hi' : list < vs.length := by rw [← hc.holds.length_eq]; exact hi
      simp only [List.getElem?_eq_getElem hi, List.getElem?_eq_getElem hi']
      have hl := (List.forall₂_iff_get.1 hc.holds).2 list hi hi'
      exact ⟨trivial, hc.tidy, List.rel_append hc.holds (.cons hl .nil)⟩
    · have hi' : vs.length ≤ list := by rw [← hc.holds.length_eq]; exact hi
      simp only [List.getElem?_eq_none hi, List.getElem?_eq_none hi']
      exact ⟨trivial, hc⟩
  | append list n =>
    refine ask_mirrors hc list fun l v hl => ?_
    by_cases hroom : v.elements.length < v.limit
    · rw [NodeVector.append, if_pos hroom]
      exact (hl.append_succeeds hc.tidy hroom fair).bind fun l' t _ hl' => .pure ⟨rfl, hl'⟩
    · rw [NodeVector.append, if_neg hroom]
      exact (hl.append_answers (Nat.not_lt.1 hroom) n).bind_error fun _ => rfl
  | pop list =>
    refine ask_mirrors hc list fun l v hl => ?_
    unfold NodeVector.pop
    cases hx : v.elements.getLast? with
    | some x =>
      refine (hl.pop_succeeds hc.tidy hx).bind ?_
      rintro ⟨y, l'⟩ t _ ⟨rfl, hl'⟩
      exact .pure ⟨rfl, hl'⟩
    | none => exact (hl.pop_answers (List.getLast?_eq_none_iff.1 hx)).bind_error fun _ => rfl
  | get list i =>
    refine ask_mirrors hc list fun l v hl => ?_
    rw [hl.get_eq, NodeVector.get]
    cases v.elements[i]? with
    | some x => exact .pure ⟨rfl, hl⟩
    | none => exact .throw_bind rfl
  | set list i n =>
    refine ask_mirrors hc list fun l v hl => ?_
    by_cases hi : i < v.elements.length
    · rw [NodeVector.set, if_pos hi]
      exact (hl.set_succeeds hc.tidy hi fair).bind fun l' t _ hl' => .pure ⟨rfl, hl'⟩
    · rw [NodeVector.set, if_neg hi]
      exact (hl.set_answers (Nat.not_lt.1 hi) n).bind_error fun _ => rfl
  | length list =>
    refine ask_mirrors hc list fun l v hl => ?_
    rw [hl.length_eq]
    exact .pure ⟨rfl, hl⟩
  | root list =>
    refine ask_mirrors hc list fun l v hl => ?_
    refine (Regime.Succeeds.lift hl.root_gives).bind ?_
    rintro _ t later rfl
    exact .pure ⟨rfl, hl.later later⟩

/-- A request changes no list but the one it goes to, and none if it is refused. -/
structure Spares (c : Lists) (list? : Option Nat) (out : ListAnswer × Lists) : Prop where
  refused : ∀ e, out.1 = .refused e → out.2.lists = c.lists
  others : ∀ list < c.lists.length, list? ≠ some list → out.2.lists[list]? = c.lists[list]?

theorem ask_spares (c : Lists) (list : Nat) (x : MerkleList → TreeM (ListReply × MerkleList)) :
    c.Spares (some list) (c.ask list x) := by
  unfold ask
  split
  · exact ⟨fun _ _ => rfl, fun _ _ _ => rfl⟩
  · split
    · exact ⟨fun _ => nofun, fun other _ ho => List.getElem?_set_ne fun e => ho (congrArg some e)⟩
    · exact ⟨fun _ _ => rfl, fun _ _ _ => rfl⟩

theorem serve_spares (h : Hasher) (c : Lists) (req : ListRequest) :
    c.Spares req.list? (c.serve h req) := by
  cases req with
  | create limit =>
    simp only [serve]
    split
    · exact ⟨fun _ => nofun, fun list hl _ => List.getElem?_append_left hl⟩
    · exact ⟨fun _ _ => rfl, fun _ _ _ => rfl⟩
  | clone list =>
    simp only [serve]
    split
    · exact ⟨fun _ _ => rfl, fun _ _ _ => rfl⟩
    · exact ⟨fun _ => nofun, fun list hl _ => List.getElem?_append_left hl⟩
  | append list n => exact ask_spares c list _
  | pop list => exact ask_spares c list _
  | get list i => exact ask_spares c list _
  | set list i n => exact ask_spares c list _
  | length list => exact ask_spares c list fun l => return (.length l.length, l)
  | root list => exact ask_spares c list fun l => return (.root (← l.root), l)

/-! ## Whole runs -/

theorem replay_append (reqs : List ListRequest) (req : ListRequest) (vs : List NodeVector) :
    NodeVector.replay h (reqs ++ [req]) vs =
      ((NodeVector.replay h reqs vs).1 ++ [(NodeVector.serve h (NodeVector.replay h reqs vs).2 req).1],
        (NodeVector.serve h (NodeVector.replay h reqs vs).2 req).2) := by
  induction reqs generalizing vs with
  | nil => rfl
  | cons r reqs ih => simp only [List.cons_append, NodeVector.replay, ih]

theorem Run.continues {history : List (ListRequest × ListAnswer)} (run : Run h c history) :
    Continues h ⟨.empty, []⟩ c history := by
  induction run with
  | start => exact .start
  | elsewhere _ later ih => exact .elsewhere ih later
  | request req _ fair ih => exact .request req ih fair

/-- Lists that mirror vectors go on to mirror what the vectors come to be. -/
theorem Continues.mirrors {first : Lists} {history : List (ListRequest × ListAnswer)}
    (run : Continues h first c history) (hfirst : first.Mirrors h vs) :
    ∃ vs', NodeVector.replay h (history.map Prod.fst) vs = (history.map Prod.snd, vs') ∧
      c.Mirrors h vs' := by
  -- by induction on the run: every request keeps the lists mirrored, and so does a later store
  induction run with
  | start => exact ⟨vs, rfl, hfirst⟩
  | elsewhere _ later ih =>
    obtain ⟨vs', hreplay, hc⟩ := ih
    exact ⟨vs', hreplay, hc.later later⟩
  | @request c history req _ fair ih =>
    obtain ⟨vs', hreplay, hc⟩ := ih
    obtain ⟨hanswer, hc'⟩ := serve_mirrors hc fair
    refine ⟨_, ?_, hc'⟩
    rw [List.map_append, List.map_append, List.map_singleton, List.map_singleton, replay_append,
      hreplay, hanswer]

/-- After a run the lists mirror what the vectors came to be. -/
theorem Run.mirrors {history : List (ListRequest × ListAnswer)} (run : Run h c history) :
    ∃ vs, NodeVector.replay h (history.map Prod.fst) [] = (history.map Prod.snd, vs) ∧
      c.Mirrors h vs :=
  run.continues.mirrors ⟨Store.tidy_empty, .nil⟩

/-- In every run each list answers as a plain vector of its own: what the vectors answer to the same
requests is what the lists answered, with the very nodes that were handed over, and the root of a
vector is the one that a list of its elements has. A refused request leaves all lists as they were,
and no request changes a list it does not go to. -/
theorem Run.as_vectors {history : List (ListRequest × ListAnswer)} (run : Run h c history) :
    ∃ vs : List NodeVector,
      NodeVector.replay h (history.map Prod.fst) [] = (history.map Prod.snd, vs) ∧
      (∀ v ∈ vs, ((Provable.list h v.limit (v.elements.map (Provable.node h))).root.run.run c.store).1 =
        .ok (MerkleList.vectorRoot h v.limit v.elements)) ∧
      ∀ req : ListRequest,
        (∀ e, (c.serve h req).1 = .refused e → (c.serve h req).2.lists = c.lists) ∧
        ∀ list < c.lists.length, req.list? ≠ some list →
          (c.serve h req).2.lists[list]? = c.lists[list]? := by
  obtain ⟨vs, hreplay, hc⟩ := run.mirrors
  refine ⟨vs, hreplay, fun v hv => ?_, fun req => ?_⟩
  swap
  · obtain ⟨hrefused, hothers⟩ := c.serve_spares h req
    exact ⟨hrefused, hothers⟩
  obtain ⟨i, hi, rfl⟩ := List.mem_iff_getElem.1 hv
  have hi' : i < c.lists.length := by rw [hc.holds.length_eq]; exact hi
  have hl := (List.forall₂_iff_get.1 hc.holds).2 i hi' hi
  obtain ⟨_, _, hrun, -, -, rfl⟩ := hl.list_answers trivial
  exact congrArg Prod.fst hrun

/-- A list with room for two and its clone go their own ways, one of them with a pair of the other's
element. -/
theorem run_of_clones : ∃ (x y : Node) (c : Lists) (history : List (ListRequest × ListAnswer)),
    (∃ serial, x = .pair serial y y) ∧ Run .sha256 c history ∧
      history.map Prod.fst = [.create 2, .append 0 y, .clone 0, .append 1 x, .append 1 y, .pop 0,
        .get 1 1, .get 0 0, .pop 1, .length 1] ∧
      history.map Prod.snd = [.reply .done, .reply .done, .reply .done, .reply .done,
        .refused (.overCapacity 3 2), .reply (.node y), .reply (.node x), .refused (.outOfBounds 0 0),
        .reply (.node x), .reply (.length 1)] := by
  let y : Node := .leaf (.zero "sha256" 0) .zero
  have created := (Run.start (h := .sha256)).request (.create 2) (show 2 ≤ 2 ^ 62 by decide)
  have cloned := (created.request (.append 0 y) trivial).request (.clone 0) trivial
  obtain ⟨_, -, mirrors⟩ := cloned.mirrors
  have made := Node.newPair_gives (h := .sha256) mirrors.tidy (l := y) (r := y) trivial trivial
  obtain ⟨x, s, -, later, -, hx, serial, hpair⟩ := made trivial
  have full := (cloned.elsewhere later).request (.append 1 x) hx
  have popped := (full.request (.append 1 y) trivial).request (.pop 0) trivial
  have run := (((popped.request (.get 1 1) trivial).request (.get 0 0) trivial).request
    (.pop 1) trivial).request (.length 1) trivial
  obtain ⟨vs, hreplay, -⟩ := run.as_vectors
  exact ⟨x, y, _, _, ⟨serial, hpair⟩, run, rfl, (congrArg Prod.fst hreplay).symm⟩

end Lists

end SszMerkle
