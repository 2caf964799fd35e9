import Mccl.Coherence.Network
import Mccl.Framework.PackedMaps

/-! # The Local Page Cache

    Model of `track_page`, `untrack_page` and `write_page_done` of
    `coherence/CoherenceProtocol.cpp` as operations on a map. The cache is kept
    under `GlobalAddress::pack`, which leaves the offset out.

    * `tracked`: the map from pages to what was tracked for them last.
    * `contents_run`: the cache is that map, kept under packed keys.
    * `page_cache_iff`: the cache answers as the map for the pages in use if and
      only if no two of them are in one region.
    * `pages_confused`: with two pages of a region, write permission is granted and
      dirty data recorded for the wrong page. -/

namespace Mccl.Coherence

open Dmem PackedMaps

namespace Node

def track_page (n : Node) (page : GlobalAddress) (state : CoherenceState) (epoch : UInt64) : Node :=
  { n with
    local_cache_ := (pack page, ⟨page, state, epoch, false⟩) :: n.local_cache_.filter fun c => c.1 ≠ pack page }

def untrack_page (n : Node) (page : GlobalAddress) : Node :=
  { n with local_cache_ := n.local_cache_.filter fun c => c.1 ≠ pack page }

/-- What the cache has under each key. -/
def contents (n : Node) (key : UInt64) : Option CachedPage := n.local_cache_.lookup key

end Node

/-! ## Operations on Pages -/

/-- An address that is aligned to a page. -/
def Page := { a : GlobalAddress // pageOf a = a }
deriving DecidableEq

inductive CacheOp where
  | track (page : Page) (state : CoherenceState) (epoch : UInt64)
  | untrack (page : Page)
  | write_done (page : Page)

namespace CacheOp

def page : CacheOp → Page
  | track page _ _ | untrack page | write_done page => page

def run (n : Node) : CacheOp → Node
  | track page state epoch => n.track_page page.1 state epoch
  | untrack page => n.untrack_page page.1
  | write_done page => (n.write_page_done page.1).node

end CacheOp

/-- A page that may be written becomes dirty. -/
def markDirty (c : CachedPage) : CachedPage :=
  if c.local_state = .EXCLUSIVE then { c with dirty := true } else c

/-- What an operation means for its page. -/
def CacheOp.update : CacheOp → Update Page CachedPage
  | track page state epoch => ⟨page, fun _ => some ⟨page.1, state, epoch, false⟩⟩
  | untrack page => ⟨page, fun _ => none⟩
  | write_done page => ⟨page, Option.map markDirty⟩

/-- The map from pages to what was tracked for them last and not untracked since. -/
def tracked (ops : List CacheOp) : Page → Option CachedPage :=
  (ops.map CacheOp.update).foldl exact fun _ => none

def packPage (p : Page) : UInt64 := pack p.1

/-! ## The Cache Is a Packed Map -/

section Contents

variable {l : List (UInt64 × CachedPage)} {key k : UInt64}

theorem lookup_cons_ite (v : CachedPage) :
    ((k, v) :: l).lookup key = if key = k then some v else l.lookup key := by
  rw [List.lookup_cons]
  by_cases hkey : key = k
  · simp [hkey]
  · rw [if_neg hkey, beq_eq_false_iff_ne.mpr hkey]

theorem lookup_filter_ne : (l.filter fun c => c.1 ≠ k).lookup key = if key = k then none else l.lookup key := by
  induction l with
  | nil => simp
  | cons c l ih =>
    obtain ⟨k', v⟩ := c
    by_cases hk : k' = k
    · -- an entry that goes
      subst hk
      rw [List.filter_cons_of_neg (by simp), ih, lookup_cons_ite]
      by_cases hkey : key = k'
      · simp [hkey]
      · simp [hkey]
    · rw [List.filter_cons_of_pos (by simpa using hk), lookup_cons_ite, lookup_cons_ite, ih]
      by_cases hkey : key = k'
      · subst hkey
        simp [hk]
      · simp [hkey]

/-- The entries with one key are changed. -/
theorem lookup_map_at (f : CachedPage → CachedPage) :
    (l.map fun c => if c.1 = k then (c.1, f c.2) else c).lookup key =
      if key = k then (l.lookup key).map f else l.lookup key := by
  induction l with
  | nil => simp
  | cons c l ih =>
    obtain ⟨k', v⟩ := c
    rw [List.map_cons, lookup_cons_ite]
    by_cases hk : k' = k
    · subst hk
      rw [if_pos rfl, lookup_cons_ite, ih]
      by_cases hkey : key = k'
      · simp [hkey]
      · simp [hkey]
    · rw [if_neg hk, lookup_cons_ite, ih]
      by_cases hkey : key = k'
      · subst hkey
        simp [hk]
      · simp [hkey]

end Contents

theorem contents_track_page (n : Node) (page : GlobalAddress) (state : CoherenceState) (epoch : UInt64) :
    (n.track_page page state epoch).contents =
      Function.update n.contents (pack page) (some ⟨page, state, epoch, false⟩) := by
  funext key
  show List.lookup key (_ :: _) = _
  rw [lookup_cons_ite, lookup_filter_ne]
  by_cases hkey : key = pack page
  · simp [hkey]
  · rw [Function.update_of_ne hkey]
    simp [hkey, Node.contents]

theorem contents_untrack_page (n : Node) (page : GlobalAddress) :
    (n.untrack_page page).contents = Function.update n.contents (pack page) none := by
  funext key
  show (List.filter _ _).lookup key = _
  rw [lookup_filter_ne]
  by_cases hkey : key = pack page
  · simp [hkey]
  · rw [Function.update_of_ne hkey, if_neg hkey]
    rfl

theorem contents_write_page_done (n : Node) (p : Page) :
    (n.write_page_done p.1).node.contents =
      Function.update n.contents (packPage p) ((n.contents (packPage p)).map markDirty) := by
  have hmark : (fun c : UInt64 × CachedPage => if c.1 = pack (pageOf p.1) ∧ c.2.local_state = .EXCLUSIVE then
      (c.1, { c.2 with dirty := true }) else c) = fun c => if c.1 = packPage p then (c.1, markDirty c.2) else c := by
    funext c
    obtain ⟨key, c⟩ := c
    rw [p.2]
    unfold markDirty packPage
    by_cases hkey : key = pack p.1
    · by_cases hstate : c.local_state = .EXCLUSIVE
      · simp [hkey, hstate]
      · simp [hkey, hstate]
    · simp [hkey]
  funext key
  show (List.map _ n.local_cache_).lookup key = _
  rw [hmark, lookup_map_at]
  by_cases hkey : key = packPage p
  · subst hkey
    rw [if_pos rfl, Function.update_self]
    rfl
  · rw [if_neg hkey, Function.update_of_ne hkey]
    rfl

/-- Every operation is the update of its page, under the packed key. -/
theorem contents_op (n : Node) (op : CacheOp) : (op.run n).contents = packed packPage n.contents op.update := by
  cases op with
  | track page state epoch => exact contents_track_page n page.1 state epoch
  | untrack page => exact contents_untrack_page n page.1
  | write_done page => exact contents_write_page_done n page

theorem contents_run (n : Node) (ops : List CacheOp) :
    (ops.foldl CacheOp.run n).contents = (ops.map CacheOp.update).foldl (packed packPage) n.contents := by
  induction ops generalizing n with
  | nil => rfl
  | cons op ops ih => rw [List.foldl_cons, ih, contents_op, List.map_cons, List.foldl_cons]

/-! ## Permissions -/

/-- What `read_page` asks of a cached page. -/
def Permits (write : Bool) : Option CachedPage → Prop
  | some cached => write = true → cached.local_state = .EXCLUSIVE
  | none => False

/-- A request is sent, or raises. -/
theorem request_ne (n : Node) (page : GlobalAddress) (write : Bool) : n.request page write ≠ ⟨n, none⟩ := by
  intro heq
  unfold Node.request Node.send_message at heq
  split at heq
  · have hout := congrArg (fun r => r.node.outbox.length) heq
    simp [Node.post] at hout
  · cases congrArg Result.error heq

theorem read_page_early_iff (n : Node) (p : Page) (write : Bool) :
    n.read_page p.1 write = ⟨n, none⟩ ↔ Permits write (n.contents (packPage p)) := by
  unfold Node.read_page
  rw [p.2]
  show (match n.contents (packPage p) with | some _ => _ | none => _) = _ ↔ _
  cases n.contents (packPage p) with
  | none => simp [Permits, request_ne]
  | some cached =>
    cases write with
    | false => simp [Permits]
    | true =>
      cases hstate : cached.local_state <;> simp [Permits, hstate, request_ne]

/-! ## Telling Pages Apart -/

/-- The cache of a node answers for `p` as the map of what was tracked: lookups
    find what the map has, `read_page` returns early exactly if that permits it, and
    `write_page_done` changes `p` and no other page in use. -/
structure Answers (P : Set Page) (n : Node) (m : Page → Option CachedPage) (p : Page) : Prop where
  found : n.find_cached p.1 = m p
  read : ∀ write, n.read_page p.1 write = ⟨n, none⟩ ↔ Permits write (m p)
  written : ∀ q ∈ P, (n.write_page_done p.1).node.find_cached q.1 = if q = p then (m q).map markDirty else m q

/-- After all operations on pages of `P`, the cache answers for all of them. -/
def TellsApart (P : Set Page) : Prop :=
  ∀ (num_nodes node_id : Nat) (ops : List CacheOp), (∀ op ∈ ops, op.page ∈ P) →
    ∀ p ∈ P, Answers P (ops.foldl CacheOp.run (Node.new num_nodes node_id)) (tracked ops) p

theorem packPage_injOn_iff {P : Set Page} : Set.InjOn packPage P ↔
    ∀ p ∈ P, ∀ q ∈ P, p.1.node_id = q.1.node_id → p.1.region_id = q.1.region_id → p = q := by
  constructor
  · intro hinj p hp q hq hnode hregion
    apply hinj hp hq
    show pack p.1 = pack q.1
    rw [pack, pack, hnode, hregion]
  · intro hone p hp q hq hkey
    obtain ⟨hnode, hregion⟩ := catalog_key_injective hkey
    exact hone p hp q hq hnode hregion

theorem tellsApart_of_injOn {P : Set Page} (hinj : Set.InjOn packPage P) : TellsApart P := by
  intro num_nodes node_id ops hops p hp
  have hupdates : ∀ u ∈ ops.map CacheOp.update, u.addr ∈ P := by
    intro u hu
    obtain ⟨op, hop, rfl⟩ := List.mem_map.mp hu
    have := hops op hop
    cases op <;> exact this
  have hfound : ∀ q ∈ P, (ops.foldl CacheOp.run (Node.new num_nodes node_id)).contents (packPage q) = tracked ops q := by
    intro q hq
    rw [contents_run]
    exact packed_run hinj hupdates (fun _ _ => rfl) q hq
  refine ⟨hfound p hp, fun write => ?_, fun q hq => ?_⟩
  · rw [read_page_early_iff, hfound p hp]
  · show Node.contents _ (packPage q) = _
    rw [contents_write_page_done]
    by_cases hqp : q = p
    · subst hqp
      rw [Function.update_self, hfound q hq, if_pos rfl]
    · rw [Function.update_of_ne fun hkey => hqp (hinj hq hp hkey), hfound q hq, if_neg hqp]

/-- **The page cache** answers as the map of what was tracked, for the pages in use
    and after any operations on them, if and only if no two of these pages are in
    one region. -/
theorem page_cache_iff (P : Set Page) : TellsApart P ↔
    ∀ p ∈ P, ∀ q ∈ P, p.1.node_id = q.1.node_id → p.1.region_id = q.1.region_id → p = q := by
  rw [← packPage_injOn_iff]
  constructor
  · intro h p hp q hq hkey
    by_contra hne
    -- only `q` is tracked, and `p` is found
    have hanswers := h 0 0 [.track q .SHARED 0] (by simpa [CacheOp.page] using hq) p hp
    have hcollision := packed_collision hne hkey (⟨q.1, .SHARED, 0, false⟩ : CachedPage)
    have hfound : (CacheOp.run (Node.new 0 0) (.track q .SHARED 0)).contents (packPage p) =
        some ⟨q.1, .SHARED, 0, false⟩ := by
      rw [contents_op]
      exact hcollision.1
    have hnone : tracked [.track q .SHARED 0] p = none := hcollision.2
    have heq := hanswers.found
    rw [hnone] at heq
    exact absurd (hfound.symm.trans heq) (by simp)
  · exact tellsApart_of_injOn

/-- The first two pages of region 1 of node 1. -/
def firstPage : Page := ⟨⟨1, 1, 0⟩, by decide⟩

def secondPage : Page := ⟨⟨1, 1, 65536⟩, by decide⟩

/-- The second page is held exclusively. For the first one, which is not held at
    all, a write is admitted without a request, and it makes the second page
    dirty. -/
theorem pages_confused :
    tracked [.track secondPage .EXCLUSIVE 1] firstPage = none ∧
    let n := (Node.new 2 0).track_page secondPage.1 .EXCLUSIVE 1
    n.find_cached firstPage.1 = some ⟨secondPage.1, .EXCLUSIVE, 1, false⟩ ∧
    n.read_page firstPage.1 true = ⟨n, none⟩ ∧
    (n.write_page_done firstPage.1).node.find_cached secondPage.1 =
      some ⟨secondPage.1, .EXCLUSIVE, 1, true⟩ := by
  refine ⟨by decide, by decide, ?_, by decide⟩
  rw [read_page_early_iff]
  exact fun _ => rfl

end Mccl.Coherence
