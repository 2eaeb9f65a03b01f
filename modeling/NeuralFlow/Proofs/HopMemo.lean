import Mathlib
import NeuralFlow.Hops.Memo
import NeuralFlow.Proofs.Walks

/-! What a memo answers. Under any fingerprint of graphs, also one that takes all graphs for one, the
answers are the sets that would have been built, and every graph is kept once for each rule. -/

namespace NeuralFlow

open EdgeMatrix LawfulBacking

variable {M : Type → Type} [EdgeMatrix M] [LawfulBacking M] {α : Type} [Scalar α]

omit [LawfulBacking M] in
/-- The hops of a graph do not depend on the values of its edges. -/
theorem HopRule.build_congr (rule : HopRule) {a b : M α} (hn : numNodes a = numNodes b)
    (hp : pattern a = pattern b) : rule.build a = rule.build b := by
  have hrow : ∀ u, (row a u).map Edge.dst = (row b u).map Edge.dst := fun u => by
    have hends : (row a u).map Edge.ends = (row b u).map Edge.ends := by
      rw [map_ends_row, map_ends_row, hp]
    have hsnd := congrArg (List.map Prod.snd) hends
    rwa [List.map_map, List.map_map] at hsnd
  have hsucc : successors a = successors b := by
    rw [successors, successors, hn]
    exact List.map_congr_left fun u _ => hrow u
  simp only [build, hn, hsucc]

namespace HopMemo

inductive Request (M : Type → Type) (α : Type) where
  | get (adjacency : M α) (rule : HopRule)
  | clear

/-- The nodes and edges of a graph, and the rule for its hops. -/
abbrev Wanted := (ℕ × Finset (ℕ × ℕ)) × HopRule

omit [LawfulBacking M] [Scalar α] in
def wantedBy (adjacency : M α) (rule : HopRule) : Wanted :=
  ((numNodes adjacency, (pattern adjacency).toFinset), rule)

def wantedAfter (wanted : Finset Wanted) : Request M α → Finset Wanted
  | .get adjacency rule => Insert.insert (wantedBy adjacency rule) wanted
  | .clear => ∅

def wanted (calls : List (Request M α)) : Finset Wanted := calls.foldl wantedAfter ∅

omit [Scalar α] in
theorem wantedBy_eq_iff {a b : M α} (ha : Square a) (hb : Square b) {rule rule' : HopRule} :
    wantedBy a rule = wantedBy b rule' ↔
      samePattern a b = true ∧ rule = rule' := by
  rw [samePattern_iff ha hb, wantedBy, wantedBy, Prod.mk.injEq, Prod.mk.injEq]
  refine and_congr_left fun _ => and_congr_right fun _ => ⟨fun h => ?_, fun h => by rw [h]⟩
  refine (rowOrdered ha).ends_eq (rowOrdered hb) fun p => ?_
  have hp := Finset.ext_iff.1 h p
  rwa [List.mem_toFinset, List.mem_toFinset] at hp

variable {κ : Type} [DecidableEq κ]

def serve (fingerprint : M α → κ) (memo : HopMemo κ M α) :
    Request M α → Outcome α (Option (HopSet M α) × HopMemo κ M α)
  | .get adjacency rule => do
    let (set, memo) ← memo.getOrBuild fingerprint adjacency rule
    return (some set, memo)
  | .clear => return (none, .empty)

def serveAll (fingerprint : M α → κ) (memo : HopMemo κ M α) :
    List (Request M α) → Outcome α (List (Option (HopSet M α)) × HopMemo κ M α)
  | [] => return ([], memo)
  | call :: calls => do
    let (answer, memo) ← memo.serve fingerprint call
    let (answers, memo) ← serveAll fingerprint memo calls
    return (answer :: answers, memo)

def Answers : Request M α → Option (HopSet M α) → Prop
  | .get adjacency rule, some set => rule.build adjacency = .ok set
  | .get _ _, none => False
  | .clear, answer => answer = none

/-! Buckets. -/

def contents (buckets : List ((κ × HopRule) × List (M α × HopSet M α))) : List Wanted :=
  buckets.flatMap fun bucket => bucket.2.map fun entry => wantedBy entry.1 bucket.1.2

omit [LawfulBacking M] [Scalar α] [DecidableEq κ] in
theorem size_eq_length_contents (memo : HopMemo κ M α) :
    memo.size = (contents memo.buckets).length := by
  simp [size, contents, List.length_flatMap]

omit [LawfulBacking M] [Scalar α] in
theorem contents_insertInto (key : κ × HopRule) (entry : M α × HopSet M α)
    (buckets : List ((κ × HopRule) × List (M α × HopSet M α))) :
    (contents (insertInto key entry buckets)).Perm (wantedBy entry.1 key.2 :: contents buckets) := by
  induction buckets with
  | nil => exact .refl _
  | cons bucket rest ih =>
    obtain ⟨k, sets⟩ := bucket
    unfold insertInto
    split_ifs with hk
    · subst hk
      simp only [contents, List.flatMap_cons, List.map_append, List.map_singleton,
        List.append_assoc, List.singleton_append]
      exact List.perm_middle
    · simp only [contents, List.flatMap_cons] at ih ⊢
      exact (ih.append_left _).trans List.perm_middle

omit [EdgeMatrix M] [LawfulBacking M] [Scalar α] in
theorem map_fst_insertInto (key : κ × HopRule) (entry : M α × HopSet M α)
    (buckets : List ((κ × HopRule) × List (M α × HopSet M α))) :
    (insertInto key entry buckets).map Prod.fst =
      if key ∈ buckets.map Prod.fst then buckets.map Prod.fst else buckets.map Prod.fst ++ [key] := by
  induction buckets with
  | nil => simp [insertInto]
  | cons bucket rest ih =>
    obtain ⟨k, sets⟩ := bucket
    unfold insertInto
    by_cases hk : k = key
    · simp [hk]
    · have hne : key ≠ k := Ne.symm hk
      simp only [hk, if_false, List.map_cons, ih, List.mem_cons, hne, false_or]
      split_ifs <;> simp

omit [EdgeMatrix M] [LawfulBacking M] [Scalar α] in
theorem nodup_insertInto {key : κ × HopRule} {entry : M α × HopSet M α}
    {buckets : List ((κ × HopRule) × List (M α × HopSet M α))}
    (h : (buckets.map Prod.fst).Nodup) :
    ((insertInto key entry buckets).map Prod.fst).Nodup := by
  rw [map_fst_insertInto]
  split_ifs with hmem
  · exact h
  · exact h.append (List.nodup_singleton key) (List.disjoint_singleton.2 hmem)

omit [EdgeMatrix M] [LawfulBacking M] [Scalar α] in
/-- A kept set was kept before, or it is the new one. -/
theorem mem_insertInto {key : κ × HopRule} {entry : M α × HopSet M α}
    {buckets : List ((κ × HopRule) × List (M α × HopSet M α))}
    {bucket : (κ × HopRule) × List (M α × HopSet M α)} (h : bucket ∈ insertInto key entry buckets)
    {e : M α × HopSet M α} (he : e ∈ bucket.2) :
    (∃ old ∈ buckets, old.1 = bucket.1 ∧ e ∈ old.2) ∨ bucket.1 = key ∧ e = entry := by
  induction buckets with
  | nil =>
    obtain rfl : bucket = (key, [entry]) := by simpa [insertInto] using h
    exact Or.inr ⟨rfl, by simpa using he⟩
  | cons b rest ih =>
    obtain ⟨k, sets⟩ := b
    unfold insertInto at h
    split_ifs at h with hk
    · rcases List.mem_cons.1 h with rfl | h
      · rcases List.mem_append.1 he with he | he
        · exact Or.inl ⟨(k, sets), List.mem_cons_self, rfl, he⟩
        · exact Or.inr ⟨hk, by simpa using he⟩
      · exact Or.inl ⟨bucket, List.mem_cons_of_mem _ h, rfl, he⟩
    · rcases List.mem_cons.1 h with rfl | h
      · exact Or.inl ⟨(k, sets), List.mem_cons_self, rfl, he⟩
      · exact (ih h).imp_left fun ⟨old, hold, hrest⟩ => ⟨old, List.mem_cons_of_mem _ hold, hrest⟩

omit [EdgeMatrix M] [LawfulBacking M] [Scalar α] in
/-- Looking up a key finds its bucket. -/
theorem bucket_of_mem {memo : HopMemo κ M α} (h : (memo.buckets.map Prod.fst).Nodup)
    {bucket : (κ × HopRule) × List (M α × HopSet M α)} (hb : bucket ∈ memo.buckets) :
    memo.bucket bucket.1 = bucket.2 := by
  obtain ⟨buckets⟩ := memo
  unfold HopMemo.bucket
  dsimp only at h hb ⊢
  induction buckets with
  | nil => cases hb
  | cons b rest ih =>
    obtain ⟨k, sets⟩ := b
    rw [List.map_cons, List.nodup_cons] at h
    rcases List.mem_cons.1 hb with rfl | hrest
    · rw [List.lookup_cons_self, Option.getD_some]
    · have hne : (bucket.1 == k) = false := by
        rw [beq_eq_false_iff_ne]
        rintro rfl
        exact h.1 (List.mem_map.2 ⟨bucket, hrest, rfl⟩)
      rw [List.lookup_cons, hne]
      exact ih h.2 hrest

omit [EdgeMatrix M] [LawfulBacking M] [Scalar α] in
theorem mem_of_mem_bucket {memo : HopMemo κ M α} {key : κ × HopRule} {e : M α × HopSet M α}
    (h : e ∈ memo.bucket key) : ∃ sets, (key, sets) ∈ memo.buckets ∧ e ∈ sets := by
  unfold HopMemo.bucket at h
  cases hlookup : memo.buckets.lookup key with
  | none => simp [hlookup] at h
  | some sets =>
    obtain ⟨front, back, hbuckets, -⟩ := List.lookup_eq_some_iff.1 hlookup
    exact ⟨sets, by simp [hbuckets], by simpa [hlookup] using h⟩

/-! What a memo remembers. -/

/-- Every set is filed under the fingerprint of its graph and the rule that built it, and for each
graph and rule that was asked for there is one. -/
structure Remembers (code : ℕ → List (ℕ × ℕ) → κ) (memo : HopMemo κ M α) (asked : Finset Wanted) :
    Prop where
  filed : ∀ bucket ∈ memo.buckets, ∀ entry ∈ bucket.2, Square entry.1 ∧
    bucket.1.1 = code (numNodes entry.1) (pattern entry.1) ∧ bucket.1.2.build entry.1 = .ok entry.2
  keys : (memo.buckets.map Prod.fst).Nodup
  once : (contents memo.buckets).Nodup
  all : (contents memo.buckets).toFinset = asked

variable {code : ℕ → List (ℕ × ℕ) → κ}

omit [DecidableEq κ] in
theorem remembers_empty : Remembers code (.empty : HopMemo κ M α) ∅ where
  filed _ h := nomatch h
  keys := List.nodup_nil
  once := List.nodup_nil
  all := rfl

omit [DecidableEq κ] in
theorem Remembers.size_eq {memo : HopMemo κ M α} {asked : Finset Wanted}
    (h : Remembers code memo asked) : memo.size = asked.card := by
  rw [size_eq_length_contents, ← h.all, List.toFinset_card_of_nodup h.once]

variable {memo : HopMemo κ M α} {asked : Finset Wanted} {a : M α} {rule : HopRule}

/-- A set that counts for a graph is the one that would be built. -/
theorem Remembers.hit (h : Remembers code memo asked) (ha : Square a)
    {entry : M α × HopSet M α} (hmem : entry ∈ memo.bucket (code (numNodes a) (pattern a), rule))
    (hsame : samePattern entry.1 a = true) :
    rule.build a = .ok entry.2 ∧ wantedBy a rule ∈ asked := by
  obtain ⟨sets, hsets, hentry⟩ := mem_of_mem_bucket hmem
  obtain ⟨hsquare, -, hbuild⟩ := h.filed _ hsets entry hentry
  obtain ⟨hn, hp⟩ := (samePattern_iff hsquare ha).1 hsame
  refine ⟨(rule.build_congr hn hp).symm.trans hbuild, ?_⟩
  rw [← h.all, List.mem_toFinset, ← (wantedBy_eq_iff hsquare ha).2 ⟨hsame, rfl⟩]
  exact List.mem_flatMap.2 ⟨_, hsets, List.mem_map_of_mem hentry⟩

/-- What was asked for is found in its bucket. -/
theorem Remembers.exists_hit (h : Remembers code memo asked) (ha : Square a)
    (hwanted : wantedBy a rule ∈ asked) :
    ∃ entry ∈ memo.bucket (code (numNodes a) (pattern a), rule), samePattern entry.1 a = true := by
  rw [← h.all, List.mem_toFinset, contents, List.mem_flatMap] at hwanted
  obtain ⟨bucket, hbucket, hkept⟩ := hwanted
  obtain ⟨entry, hentry, hsame⟩ := List.mem_map.1 hkept
  obtain ⟨hsquare, hcode, -⟩ := h.filed bucket hbucket entry hentry
  obtain ⟨hsame, hrule⟩ := (wantedBy_eq_iff hsquare ha).1 hsame
  obtain ⟨hn, hp⟩ := (samePattern_iff hsquare ha).1 hsame
  have hkey : bucket.1 = (code (numNodes a) (pattern a), rule) :=
    Prod.ext (by rw [hcode, hn, hp]) hrule
  exact ⟨entry, by rw [← hkey, bucket_of_mem h.keys hbucket]; exact hentry, hsame⟩

/-- A graph that was not asked for yet is kept from now on. -/
theorem Remembers.insert (h : Remembers code memo asked) (ha : Square a)
    (hnew : wantedBy a rule ∉ asked) {set : HopSet M α} (hbuild : rule.build a = .ok set) :
    Remembers code (memo.insert (code (numNodes a) (pattern a), rule) (a, set))
      (Insert.insert (wantedBy a rule) asked) where
  filed bucket hbucket e he := by
    rcases mem_insertInto hbucket he with ⟨old, hold, hkey, he⟩ | ⟨hkey, rfl⟩
    · exact hkey ▸ h.filed old hold e he
    · exact hkey ▸ ⟨ha, rfl, hbuild⟩
  keys := nodup_insertInto h.keys
  once := by
    refine (contents_insertInto _ _ _).nodup_iff.2 (List.nodup_cons.2 ⟨?_, h.once⟩)
    rwa [← h.all, List.mem_toFinset] at hnew
  all := by
    have hkept := contents_insertInto (code (numNodes a) (pattern a), rule) (a, set) memo.buckets
    exact (List.toFinset_eq_of_perm _ _ hkept).trans (by rw [List.toFinset_cons, h.all])

/-- A call is answered with the set that would be built, and remembered. -/
theorem Remembers.serve (hone : Scalar.isFinite (1 : α) = true) (h : Remembers code memo asked)
    (call : Request M α) (hsquare : ∀ a rule, call = .get a rule → Square a) :
    Yields (memo.serve (fun a => code (numNodes a) (pattern a)) call) fun served =>
      Answers call served.1 ∧ Remembers code served.2 (wantedAfter asked call) := by
  cases call with
  | clear => exact yields_pure ⟨rfl, remembers_empty⟩
  | get a rule =>
    have ha := hsquare a rule rfl
    suffices hget : Yields (memo.getOrBuild (fun a => code (numNodes a) (pattern a)) a rule)
        fun served => rule.build a = .ok served.1 ∧
          Remembers code served.2 (Insert.insert (wantedBy a rule) asked) from
      hget.bind fun served hserved => yields_pure hserved
    unfold getOrBuild
    dsimp only
    split
    · rename_i entry set hfind
      obtain ⟨hbuild, hwanted⟩ := h.hit ha (List.mem_of_find?_eq_some hfind)
        (by simpa using List.find?_some hfind)
      refine yields_pure ⟨hbuild, ?_⟩
      rwa [Finset.insert_eq_of_mem hwanted]
    · rename_i hfind
      have hnew : wantedBy a rule ∉ asked := fun hwanted => by
        obtain ⟨entry, hentry, hsame⟩ := h.exists_hit ha hwanted
        exact List.find?_eq_none.1 hfind entry hentry hsame
      obtain ⟨set, hbuild, -⟩ := rule.build_isHop hone ha
      rw [hbuild]
      exact ⟨_, rfl, rfl, h.insert ha hnew hbuild⟩

theorem Remembers.serveAll (hone : Scalar.isFinite (1 : α) = true) (calls : List (Request M α))
    (hsquare : ∀ a rule, .get a rule ∈ calls → Square a) (h : Remembers code memo asked) :
    Yields (memo.serveAll (fun a => code (numNodes a) (pattern a)) calls) fun served =>
      List.Forall₂ Answers calls served.1 ∧
        Remembers code served.2 (calls.foldl wantedAfter asked) := by
  induction calls generalizing memo asked with
  | nil => exact yields_pure ⟨.nil, h⟩
  | cons call calls ih =>
    have hcall := h.serve hone call fun a rule hget => hsquare a rule (by simp [hget])
    refine hcall.bind fun served hserved => ?_
    refine (ih (fun a rule hget => hsquare a rule (List.mem_cons_of_mem _ hget)) hserved.2).bind
      fun rest hrest => yields_pure ⟨.cons hserved.1 hrest.1, hrest.2⟩

/-- Whatever fingerprint is taken of the nodes and edges of a graph, a memo that starts empty answers
every call with the set that would be built, and after any calls it keeps one set for each graph and
rule asked for since it was last cleared. -/
theorem serveAll_eq_build (hone : Scalar.isFinite (1 : α) = true) (code : ℕ → List (ℕ × ℕ) → κ)
    (calls : List (Request M α)) (hsquare : ∀ a rule, .get a rule ∈ calls → Square a) :
    ∃ answers memo,
      (.empty : HopMemo κ M α).serveAll (fun a => code (numNodes a) (pattern a)) calls =
        .ok (answers, memo) ∧
      List.Forall₂ Answers calls answers ∧ memo.size = (wanted calls).card := by
  have hstart : Remembers code (.empty : HopMemo κ M α) ∅ := remembers_empty
  obtain ⟨⟨answers, memo⟩, hserve, hanswers, hmemo⟩ := hstart.serveAll hone calls hsquare
  exact ⟨answers, memo, hserve, hanswers, hmemo.size_eq⟩

/-- Two graphs that differ in their values, one on the same nodes with other edges, and one asked for
by another rule. -/
def collidingCalls : List (Request SparseMatrix Float32) :=
  [.get (.identity 2) ⟨2, true⟩, .clear, .get (.exchange 1 1) ⟨2, true⟩,
    .get (.exchange 2 3) ⟨2, true⟩, .get (.identity 2) ⟨2, true⟩, .get (.identity 2) ⟨1, true⟩]

theorem card_wanted_collidingCalls : (wanted collidingCalls).card = 3 := by
  have hexchange : ∀ x y : Float32, pattern (SparseMatrix.exchange x y) = [(0, 1), (1, 0)] :=
    fun x y => by rw [pattern, SparseMatrix.edges_exchange]; rfl
  have hidentity : pattern (SparseMatrix.identity 2 : SparseMatrix Float32) = [(0, 0), (1, 1)] := rfl
  have hnodes : numNodes (SparseMatrix.identity 2 : SparseMatrix Float32) = 2 := rfl
  simp only [wanted, collidingCalls, List.foldl_cons, List.foldl_nil, wantedAfter, wantedBy, hexchange,
    hidentity, hnodes, SparseMatrix.numNodes_exchange]
  decide

/-- A memo whose fingerprints are all equal. -/
theorem serveAll_eq_build_collidingCalls :
    Scalar.isFinite (1 : Float32) = true ∧
    (∀ a rule, .get a rule ∈ collidingCalls → Square a) ∧
    ∃ answers memo, (.empty : HopMemo Unit SparseMatrix Float32).serveAll (fun _ => ())
        collidingCalls = .ok (answers, memo) ∧
      List.Forall₂ Answers collidingCalls answers ∧ memo.size = 3 := by
  have hone : Scalar.isFinite (1 : Float32) = true := by decide +kernel
  have hsquare : ∀ a rule, .get a rule ∈ collidingCalls → Square a := by
    intro a rule hget
    simp only [collidingCalls, List.mem_cons, Request.get.injEq, reduceCtorEq, List.not_mem_nil,
      or_false, false_or] at hget
    rcases hget with ⟨rfl, -⟩ | ⟨rfl, -⟩ | ⟨rfl, -⟩ | ⟨rfl, -⟩ | ⟨rfl, -⟩
    · exact SparseMatrix.square_identity 2
    · exact SparseMatrix.square_exchange 1 1
    · exact SparseMatrix.square_exchange 2 3
    · exact SparseMatrix.square_identity 2
    · exact SparseMatrix.square_identity 2
  obtain ⟨answers, memo, hserve, hanswers, hsize⟩ :=
    serveAll_eq_build hone (fun _ _ => ()) collidingCalls hsquare
  exact ⟨hone, hsquare, answers, memo, hserve, hanswers, hsize.trans card_wanted_collidingCalls⟩

end HopMemo

end NeuralFlow
