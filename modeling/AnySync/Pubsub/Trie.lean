import AnySync.Go.Basic
import Mathlib.Data.Finset.Card
import Mathlib.Data.Multiset.AddSub
import Mathlib.Data.List.Nodup

/-!
# Topics and the subscription trie

The model of `commonspace/pubsub/topic.go` and `trie.go`. A trie has one level for each segment of a
pattern, with slots of their own for the wildcards; the node at the end of a pattern counts its
subscribers.
-/

namespace Pubsub

open Multiset (count_pos mem_toFinset count_erase_of_ne count_erase_self)

/-! ## Topics -/

/-- The byte `'/'`. -/
def slash : UInt8 := 47

/-- `maxTopicLen`. -/
def maxTopicLen : ℕ := 256

/-- `maxSegments`. -/
def maxSegments : ℕ := 16

/-- `wildcardOne`, which is `"*"`. -/
def wildcardOne : GoString := [42]

/-- `wildcardTail`, which is `">"`. -/
def wildcardTail : GoString := [62]

/-- The loop of `splitTopic`, with the number of segments it may still add. -/
def splitLoop : ℕ → GoString → List GoString
  | 0, rest => [rest]
  | n + 1, rest =>
      match rest.findIdx? (· = slash) with
      | none => [rest]
      | some idx => rest.take idx :: splitLoop n (rest.drop (idx + 1))

/-- `splitTopic`. -/
def splitTopic (topic : GoString) : List GoString := splitLoop maxSegments topic

/-- `strings.ContainsAny(s, "*>")`. -/
def hasWildcard (s : GoString) : Bool := s.any fun b => b = 42 || b = 62

/-- `validateSegments`. -/
def validateSegments (topic : GoString) (segs : List GoString) : Bool :=
  decide (topic ≠ [] ∧ topic.length ≤ maxTopicLen ∧ segs.length ≤ maxSegments) &&
    segs.all fun s => decide (s ≠ [])

/-- `ValidatePattern`. -/
def validatePattern (pattern : GoString) : Bool :=
  let segs := splitTopic pattern
  validateSegments pattern segs && segs.zipIdx.all fun (s, i) =>
    if s = wildcardOne then true
    else if s = wildcardTail then decide (i = segs.length - 1)
    else !hasWildcard s

/-- `ValidateTopic`. -/
def validateTopic (topic : GoString) : Bool :=
  let segs := splitTopic topic
  validateSegments topic segs && segs.all fun s => !hasWildcard s

theorem splitLoop_ne_nil (n : ℕ) (rest : GoString) : splitLoop n rest ≠ [] := by
  cases n with
  | zero => simp [splitLoop]
  | succ n =>
      rw [splitLoop]
      split <;> simp

theorem splitTopic_ne_nil (topic : GoString) : splitTopic topic ≠ [] := splitLoop_ne_nil _ _

/-- The segments, joined again. -/
def joinSegs (segs : List GoString) : GoString := [slash].intercalate segs

theorem joinSegs_cons {seg : GoString} {segs : List GoString} (hsegs : segs ≠ []) :
    joinSegs (seg :: segs) = seg ++ slash :: joinSegs segs := by
  obtain ⟨seg', segs, rfl⟩ := List.exists_cons_of_ne_nil hsegs
  simp [joinSegs, List.intercalate]

/-- The segments of a topic determine it. -/
theorem joinSegs_splitLoop (n : ℕ) (rest : GoString) : joinSegs (splitLoop n rest) = rest := by
  induction n generalizing rest with
  | zero => simp [splitLoop, joinSegs, List.intercalate]
  | succ n ih =>
      rw [splitLoop]
      split
      · simp [joinSegs, List.intercalate]
      · next idx hidx =>
        obtain ⟨hlt, hat, -⟩ := List.findIdx?_eq_some_iff_getElem.mp hidx
        have hat : rest[idx] = slash := by simpa using hat
        rw [joinSegs_cons (splitLoop_ne_nil _ _), ih, ← hat, List.cons_getElem_drop_succ,
          List.take_append_drop]

theorem splitTopic_injective : Function.Injective splitTopic := fun a b h => by
  have hjoin := congrArg joinSegs h
  rwa [splitTopic, joinSegs_splitLoop, splitTopic, joinSegs_splitLoop] at hjoin

/-! ## Levels and nodes -/

mutual

/-- `trieLevel`. -/
inductive TrieLevel
  | mk (nodes : List (GoString × TrieNode)) (pwc fwc : Option TrieNode)

/-- `trieNode`. -/
inductive TrieNode
  | mk (next : Option TrieLevel) (pattern : GoString) (refs : ℕ)

end

namespace TrieNode

def next : TrieNode → Option TrieLevel
  | mk next _ _ => next

def pattern : TrieNode → GoString
  | mk _ pattern _ => pattern

def refs : TrieNode → ℕ
  | mk _ _ refs => refs

/-- `&trieNode{}`. -/
def new : TrieNode := mk none [] 0

/-- The pattern that ends here and its counter, if there are subscribers. -/
def leaf (n : TrieNode) : Option (GoString × ℕ) :=
  if 0 < n.refs then some (n.pattern, n.refs) else none

variable (l : Option TrieLevel) (p : GoString) (k : ℕ) (n : TrieNode)

@[simp]
theorem next_mk : (mk l p k).next = l := rfl

theorem leaf_mk : (mk l p k).leaf = if 0 < k then some (p, k) else none := rfl

@[simp]
theorem leaf_mk_self : (mk l n.pattern n.refs).leaf = n.leaf := rfl

/-- The counter of a node, read off its leaf. -/
@[simp]
theorem refs_leaf : (n.leaf.map Prod.snd).getD 0 = n.refs := by
  rw [leaf]
  split
  · rfl
  · next h => exact (Nat.eq_zero_of_not_pos h).symm

end TrieNode

namespace TrieLevel

/-- `&trieLevel{}`. -/
def new : TrieLevel := mk [] none none

def pwc : TrieLevel → Option TrieNode
  | mk _ pwc _ => pwc

def fwc : TrieLevel → Option TrieNode
  | mk _ _ fwc => fwc

/-- `literal`. -/
def literal (seg : GoString) : TrieLevel → Option TrieNode
  | mk nodes _ _ => nodes.lookup seg

/-- `child`. -/
def child (seg : GoString) (l : TrieLevel) : Option TrieNode :=
  if seg = wildcardOne then l.pwc
  else if seg = wildcardTail then l.fwc
  else l.literal seg

/-- `setChild`. -/
def setChild (seg : GoString) (n : TrieNode) : TrieLevel → TrieLevel
  | mk nodes pwc fwc =>
    if seg = wildcardOne then mk nodes (some n) fwc
    else if seg = wildcardTail then mk nodes pwc (some n)
    else mk ((seg, n) :: nodes.filter fun x => !decide (x.1 = seg)) pwc fwc

/-- `deleteChild`. -/
def deleteChild (seg : GoString) : TrieLevel → TrieLevel
  | mk nodes pwc fwc =>
    if seg = wildcardOne then mk nodes none fwc
    else if seg = wildcardTail then mk nodes pwc none
    else mk (nodes.filter fun x => !decide (x.1 = seg)) pwc fwc

/-- `empty`. -/
def empty : TrieLevel → Bool
  | mk nodes pwc fwc => nodes.isEmpty && pwc.isNone && fwc.isNone

@[simp]
theorem lookup_filter_ne {α : Type} (seg seg' : GoString) (nodes : List (GoString × α)) :
    (nodes.filter fun x => !decide (x.1 = seg)).lookup seg' =
      if seg' = seg then none else nodes.lookup seg' := by
  induction nodes with
  | nil => simp
  | cons x nodes ih =>
    obtain ⟨key, a⟩ := x
    by_cases hkey : key = seg
    · rw [List.filter_cons_of_neg (by simp [hkey]), ih, hkey, List.lookup_cons]
      split
      · rfl
      · next hne => simp [beq_eq_false_iff_ne.mpr hne]
    · rw [List.filter_cons_of_pos (by simp [hkey]), List.lookup_cons, List.lookup_cons, ih]
      split
      · next heq =>
        rw [if_neg]
        rintro rfl
        exact hkey (beq_iff_eq.mp heq).symm
      · rfl

/-- The children after an assignment. -/
theorem child_setChild (l : TrieLevel) (seg seg' : GoString) (n : TrieNode) :
    (l.setChild seg n).child seg' = if seg' = seg then some n else l.child seg' := by
  obtain ⟨nodes, pwc, fwc⟩ := l
  simp only [setChild]
  -- the slot that is set, then the slot that is read
  split_ifs <;> simp only [child] <;> split_ifs <;>
    simp_all [literal, TrieLevel.pwc, TrieLevel.fwc, List.lookup_cons, beq_eq_false_iff_ne.mpr]

/-- The children after a deletion. -/
theorem child_deleteChild (l : TrieLevel) (seg seg' : GoString) :
    (l.deleteChild seg).child seg' = if seg' = seg then none else l.child seg' := by
  obtain ⟨nodes, pwc, fwc⟩ := l
  simp only [deleteChild]
  split_ifs <;> simp only [child] <;> split_ifs <;>
    simp_all [literal, TrieLevel.pwc, TrieLevel.fwc, -List.lookup_eq_none_iff]

theorem child_of_empty {l : TrieLevel} (h : l.empty = true) (seg : GoString) :
    l.child seg = none := by
  obtain ⟨nodes, pwc, fwc⟩ := l
  simp only [empty, Bool.and_eq_true, List.isEmpty_iff, Option.isNone_iff_eq_none] at h
  obtain ⟨⟨rfl, rfl⟩, rfl⟩ := h
  simp [child, literal, TrieLevel.pwc, TrieLevel.fwc]

/-- The loop of `Add`. -/
def add (pattern : GoString) : List GoString → TrieLevel → TrieLevel
  | [], l => l
  | seg :: segs, l =>
    let node := (l.child seg).getD .new
    let next := node.next.getD .new
    l.setChild seg <|
      if segs = [] then .mk (some next) pattern (node.refs + 1)
      else .mk (some (add pattern segs next)) node.pattern node.refs

/-- The end of `remove`: a node without subscribers and without children is deleted. -/
def prune (seg : GoString) (node : TrieNode) (l : TrieLevel) : TrieLevel :=
  if node.refs = 0 ∧ (node.next.map TrieLevel.empty).getD true = true then l.deleteChild seg
  else l.setChild seg node

/-- `remove`: the level, and whether the pattern was removed entirely. -/
def remove : List GoString → TrieLevel → TrieLevel × Bool
  | [], l => (l, false)
  | seg :: segs, l =>
    match l.child seg with
    | none => (l, false)
    | some node =>
      if segs = [] then
        if node.refs = 0 then (l, false)
        else if 0 < node.refs - 1 then
          (l.setChild seg (.mk node.next node.pattern (node.refs - 1)), false)
        else (l.prune seg (.mk node.next [] 0), true)
      else
        match node.next with
        | none => (l, false)
        | some next =>
          (l.prune seg (.mk (some (remove segs next).1) node.pattern node.refs),
            (remove segs next).2)

/-! ## Paths -/

/-- The pattern at the end of a path and its counter, if there are subscribers. -/
def leaf : List GoString → TrieLevel → Option (GoString × ℕ)
  | [], _ => none
  | seg :: rest, l =>
    (l.child seg).bind fun node => if rest = [] then node.leaf else node.next.bind (leaf rest)

end TrieLevel

/-- The same from a node on. -/
def TrieNode.leafAt (rest : List GoString) (node : TrieNode) : Option (GoString × ℕ) :=
  if rest = [] then node.leaf else node.next.bind (TrieLevel.leaf rest)

namespace TrieLevel

theorem leaf_cons (seg : GoString) (rest : List GoString) (l : TrieLevel) :
    leaf (seg :: rest) l = (l.child seg).bind (·.leafAt rest) := rfl

/-- An empty level has no pattern. -/
theorem leaf_of_empty {l : TrieLevel} (h : l.empty = true) (path : List GoString) :
    leaf path l = none := by
  cases path with
  | nil => rfl
  | cons seg rest => rw [leaf_cons, child_of_empty h, Option.bind_none]

/-- A missing level is as good as an empty one. -/
theorem leaf_getD (path : List GoString) (l : Option TrieLevel) :
    leaf path (l.getD .new) = l.bind (leaf path) := by
  cases l with
  | none => exact leaf_of_empty rfl path
  | some l => rfl

/-- A missing node is as good as a new one. -/
theorem leafAt_getD (seg : GoString) (rest : List GoString) (l : TrieLevel) :
    ((l.child seg).getD .new).leafAt rest = leaf (seg :: rest) l := by
  rw [leaf_cons]
  cases l.child seg with
  | none => simp [TrieNode.leafAt, TrieNode.leaf, TrieNode.new, TrieNode.next, TrieNode.refs]
  | some n => rfl

variable (l : TrieLevel) (seg : GoString) (node : TrieNode) (seg' : GoString)
  (rest : List GoString)

theorem leaf_setChild : leaf (seg' :: rest) (l.setChild seg node) =
    if seg' = seg then node.leafAt rest else leaf (seg' :: rest) l := by
  rw [leaf_cons, child_setChild, leaf_cons]
  split <;> rfl

/-- What is pruned has no subscribers. -/
theorem leaf_prune : leaf (seg' :: rest) (l.prune seg node) =
    if seg' = seg then node.leafAt rest else leaf (seg' :: rest) l := by
  unfold prune
  split
  · next hempty =>
    have hnone : node.leafAt rest = none := by
      rw [TrieNode.leafAt, TrieNode.leaf, hempty.1]
      cases hnext : node.next with
      | none => simp
      | some next =>
        rw [hnext] at hempty
        simp [leaf_of_empty hempty.2]
    rw [leaf_cons, child_deleteChild, leaf_cons, hnone]
    split <;> rfl
  · exact leaf_setChild l seg node seg' rest

/-- The counter of a path. -/
def refs (path : List GoString) (l : TrieLevel) : ℕ := ((leaf path l).map Prod.snd).getD 0

/-- `Add` counts its own path and leaves the others alone. -/
theorem leaf_add (pattern : GoString) {segs : List GoString} (hsegs : segs ≠ [])
    (path : List GoString) (l : TrieLevel) :
    leaf path (add pattern segs l) =
      if path = segs then some (pattern, refs segs l + 1) else leaf path l := by
  induction segs generalizing l path with
  | nil => exact absurd rfl hsegs
  | cons seg segs ih =>
    cases path with
    | nil => simp [leaf]
    | cons seg' rest =>
      rw [add, leaf_setChild]
      by_cases hseg : seg' = seg
      · subst hseg
        rw [if_pos rfl, ← leafAt_getD, refs, ← leafAt_getD]
        by_cases hsegs : segs = [] <;> by_cases hrest : rest = []
        · simp [hsegs, hrest, TrieNode.leafAt, TrieNode.leaf_mk]
        · simp [hsegs, hrest, TrieNode.leafAt, leaf_getD]
        · simp [hsegs, hrest, TrieNode.leafAt, Ne.symm hsegs]
        · simp [hsegs, hrest, TrieNode.leafAt, ih hsegs, refs, leaf_getD]
      · simp [hseg]

/-- A reference less. -/
def dec (x : Option (GoString × ℕ)) : Option (GoString × ℕ) :=
  x.bind fun (pattern, n) => if 0 < n - 1 then some (pattern, n - 1) else none

/-- A level that is changed at one child, and there at one path. -/
theorem leaf_of_leafAt {l l' : TrieLevel} {seg : GoString} {node : TrieNode}
    (hlevel : ∀ seg' rest, leaf (seg' :: rest) l' =
      if seg' = seg then node.leafAt rest else leaf (seg' :: rest) l) {segs : List GoString}
    {x : Option (GoString × ℕ)}
    (hnode : ∀ rest, node.leafAt rest = if rest = segs then x else leaf (seg :: rest) l)
    (path : List GoString) : leaf path l' = if path = seg :: segs then x else leaf path l := by
  cases path with
  | nil => rfl
  | cons seg' rest =>
    rw [hlevel]
    by_cases hseg : seg' = seg
    · simp [hseg, hnode]
    · simp [hseg]

/-- Nothing is removed where nothing is counted. -/
theorem leaf_of_leaf_none {segs : List GoString} {l : TrieLevel} (hnone : leaf segs l = none)
    (path : List GoString) :
    (leaf path l = if path = segs then dec (leaf segs l) else leaf path l) ∧
      (false = true ↔ refs segs l = 1) := by
  rw [refs, hnone]
  refine ⟨?_, by simp⟩
  split
  · next heq => rw [heq, hnone]; rfl
  · rfl

/-- `Remove` changes its own path only, and reports the last reference. -/
theorem leaf_remove (segs path : List GoString) (l : TrieLevel) :
    (leaf path (remove segs l).1 = if path = segs then dec (leaf segs l) else leaf path l) ∧
      ((remove segs l).2 = true ↔ refs segs l = 1) := by
  induction segs generalizing l path with
  | nil => exact leaf_of_leaf_none rfl path
  | cons seg segs ih =>
    rw [remove]
    cases hchild : l.child seg with
    | none => exact leaf_of_leaf_none (by rw [leaf_cons, hchild]; rfl) path
    | some node =>
      have hleaf : ∀ rest, leaf (seg :: rest) l = node.leafAt rest := by
        intro rest
        rw [leaf_cons, hchild, Option.bind_some]
      by_cases hsegs : segs = []
      · -- the node of the pattern
        have hrefs : refs [seg] l = node.refs := by
          rw [refs, hleaf, TrieNode.leafAt, if_pos rfl, TrieNode.refs_leaf]
        simp only [hsegs, if_true, hrefs]
        split
        · next hzero =>
          have hnone : leaf [seg] l = none := by simp [hleaf, TrieNode.leafAt, TrieNode.leaf, hzero]
          simpa [hrefs] using leaf_of_leaf_none hnone path
        · next hne =>
          have hval : node.leaf = some (node.pattern, node.refs) :=
            if_pos (Nat.pos_of_ne_zero hne)
          split
          · next hmore =>
            refine ⟨leaf_of_leafAt (leaf_setChild l seg _) ?_ path, by simp; omega⟩
            intro rest
            by_cases hrest : rest = []
            · simp [hrest, TrieNode.leafAt, hleaf, dec, hval, TrieNode.leaf_mk]
            · simp [hrest, TrieNode.leafAt, hleaf]
          · next hlast =>
            refine ⟨leaf_of_leafAt (leaf_prune l seg _) ?_ path, by simp; omega⟩
            intro rest
            by_cases hrest : rest = []
            · simp only [hrest, TrieNode.leafAt, hleaf, dec, hval, TrieNode.leaf_mk, if_true,
                Option.bind_some, if_neg hlast, lt_irrefl, if_false]
            · simp [hrest, TrieNode.leafAt, hleaf]
      · -- a node on the way
        simp only [hsegs, if_false]
        cases hnext : node.next with
        | none => exact leaf_of_leaf_none (by simp [hleaf, TrieNode.leafAt, hsegs, hnext]) path
        | some next =>
          have hleafAt : ∀ {rest}, rest ≠ [] → leaf (seg :: rest) l = leaf rest next := by
            intro rest hrest
            rw [hleaf, TrieNode.leafAt, if_neg hrest, hnext, Option.bind_some]
          refine ⟨leaf_of_leafAt (leaf_prune l seg _) ?_ path, ?_⟩
          · intro rest
            by_cases hrest : rest = []
            · simp [hrest, TrieNode.leafAt, hleaf, Ne.symm hsegs]
            · rw [TrieNode.leafAt, if_neg hrest, hleafAt hrest, hleafAt hsegs]
              exact (ih rest next).1
          · rw [refs, hleafAt hsegs]
            exact (ih [] next).2

end TrieLevel

/-! ## The trie -/

/-- `patternTrie`. -/
structure PatternTrie where
  root : TrieLevel
  size : ℕ

namespace PatternTrie

/-- `newPatternTrie`. -/
def new : PatternTrie := { root := .new, size := 0 }

/-- `Len`. -/
def len (t : PatternTrie) : ℕ := t.size

/-- `Add`, which also returns whether the pattern is new. -/
def add (t : PatternTrie) (pattern : GoString) : PatternTrie × Bool :=
  let root := t.root.add pattern (splitTopic pattern)
  if root.refs (splitTopic pattern) = 1 then ({ root := root, size := t.size + 1 }, true)
  else ({ root := root, size := t.size }, false)

/-- `Remove`, which also returns whether the pattern is gone. -/
def remove (t : PatternTrie) (pattern : GoString) : PatternTrie × Bool :=
  let (root, removed) := t.root.remove (splitTopic pattern)
  if removed then ({ root := root, size := t.size - 1 }, true)
  else ({ root := root, size := t.size }, false)

section Fields

variable (t : PatternTrie) (pattern : GoString)

theorem root_add : (t.add pattern).1.root = t.root.add pattern (splitTopic pattern) := by
  rw [add]
  split <;> rfl

theorem size_add : (t.add pattern).1.size = t.size + (t.add pattern).2.toNat := by
  rw [add]
  split <;> rfl

theorem root_remove : (t.remove pattern).1.root = (t.root.remove (splitTopic pattern)).1 := by
  simp only [remove]
  split <;> rfl

theorem remove_snd : (t.remove pattern).2 = (t.root.remove (splitTopic pattern)).2 := by
  simp only [remove]
  split <;> simp_all

theorem size_remove : (t.remove pattern).1.size = t.size - (t.remove pattern).2.toNat := by
  simp only [remove]
  split <;> rfl

end Fields

/-- The trie stands for these patterns. The counters are the multiplicities and `size` is the number
of distinct patterns. -/
structure Represents (t : PatternTrie) (m : Multiset GoString) : Prop where
  leaf : ∀ path q n, t.root.leaf path = some (q, n) ↔ path = splitTopic q ∧ m.count q = n ∧ 0 < n
  size : t.size = m.toFinset.card

variable {t : PatternTrie} {m : Multiset GoString}

/-- A new trie has no patterns. -/
theorem represents_new : Represents new 0 where
  leaf path q n := by
    rw [new, TrieLevel.leaf_of_empty rfl]
    simp only [reduceCtorEq, Multiset.count_zero, false_iff, not_and]
    omega
  size := rfl

section

variable (h : t.Represents m) (pattern : GoString)

include h pattern

/-- The counter of a pattern is its multiplicity. -/
theorem Represents.refs :
    t.root.refs (splitTopic pattern) = m.count pattern := by
  rw [TrieLevel.refs]
  cases hleaf : t.root.leaf (splitTopic pattern) with
  | none =>
    by_contra hne
    have hsome := (h.leaf _ pattern _).mpr ⟨rfl, rfl, Nat.pos_of_ne_zero (Ne.symm hne)⟩
    rw [hleaf] at hsome
    cases hsome
  | some x =>
    obtain ⟨hpath, hcount, -⟩ := (h.leaf _ x.1 x.2).mp hleaf
    rw [splitTopic_injective hpath]
    exact hcount.symm

/-- `Add` reports the first subscriber of a pattern. -/
theorem Represents.add_snd :
    (t.add pattern).2 = true ↔ pattern ∉ m := by
  have hrefs : (t.root.add pattern (splitTopic pattern)).refs (splitTopic pattern) =
      m.count pattern + 1 := by
    rw [TrieLevel.refs, TrieLevel.leaf_add pattern (splitTopic_ne_nil _), if_pos rfl, h.refs]
    rfl
  rw [PatternTrie.add, hrefs, ← Multiset.count_eq_zero]
  split <;> simp_all

/-- `Remove` reports the last subscriber of a pattern. -/
theorem Represents.remove_snd_iff :
    (t.remove pattern).2 = true ↔ m.count pattern = 1 := by
  rw [remove_snd, (TrieLevel.leaf_remove _ [] _).2, h.refs]

/-- The trie after `Add`. -/
theorem Represents.add :
    (t.add pattern).1.Represents (pattern ::ₘ m) where
  leaf path q n := by
    rw [root_add, TrieLevel.leaf_add pattern (splitTopic_ne_nil _), Multiset.count_cons]
    split
    · next hpath =>
      -- the path of the pattern
      rw [hpath, splitTopic_injective.eq_iff, h.refs, Option.some.injEq, Prod.mk.injEq]
      constructor
      · rintro ⟨rfl, rfl⟩
        simp
      · rintro ⟨rfl, hn, -⟩
        simpa using hn
    · next hpath =>
      rw [h.leaf]
      constructor
      · rintro ⟨rfl, hn, hpos⟩
        have hne : q ≠ pattern := fun heq => hpath (by rw [heq])
        simp [hne, hn, hpos]
      · rintro ⟨rfl, hn, hpos⟩
        have hne : q ≠ pattern := fun heq => hpath (by rw [heq])
        exact ⟨rfl, by simpa [hne] using hn, hpos⟩
  size := by
    have hnew := h.add_snd pattern
    rw [size_add, h.size, Multiset.toFinset_cons]
    by_cases hmem : pattern ∈ m
    · have hfalse : (t.add pattern).2 = false := by simpa [hmem] using hnew
      rw [hfalse, Finset.insert_eq_of_mem (Multiset.mem_toFinset.mpr hmem)]
      rfl
    · rw [hnew.mpr hmem, Finset.card_insert_of_notMem (by simpa using hmem)]
      rfl

/-- The trie after `Remove`. -/
theorem Represents.remove :
    (t.remove pattern).1.Represents (m.erase pattern) where
  leaf path q n := by
    rw [root_remove, (TrieLevel.leaf_remove _ _ _).1]
    split
    · next hpath =>
      -- at the path of the pattern, the counter goes down by one
      rw [hpath, splitTopic_injective.eq_iff]
      have hcount := h.refs pattern
      rw [TrieLevel.refs] at hcount
      constructor
      · intro hdec
        cases hleaf : t.root.leaf (splitTopic pattern) with
        | none =>
          rw [hleaf] at hdec
          cases hdec
        | some x =>
          obtain ⟨hq, -, -⟩ := (h.leaf _ x.1 x.2).mp hleaf
          have hq := splitTopic_injective hq
          simp only [hleaf, TrieLevel.dec, Option.bind_some, Option.ite_none_right_eq_some,
            Option.some.injEq, Prod.mk.injEq] at hdec
          obtain ⟨hpos, rfl, rfl⟩ := hdec
          rw [hleaf] at hcount
          simp only [Option.map_some, Option.getD_some] at hcount
          exact ⟨hq, by rw [← hq, count_erase_self, hcount], hpos⟩
      · rintro ⟨rfl, hn, hpos⟩
        rw [count_erase_self] at hn
        have hleaf := (h.leaf _ pattern _).mpr ⟨rfl, rfl, by omega⟩
        rw [hleaf, TrieLevel.dec, Option.bind_some]
        simp only [hn, if_pos hpos]
    · next hpath =>
      rw [h.leaf]
      constructor
      · rintro ⟨rfl, hn, hpos⟩
        have hne : q ≠ pattern := fun heq => hpath (by rw [heq])
        exact ⟨rfl, by rw [count_erase_of_ne hne]; exact hn, hpos⟩
      · rintro ⟨rfl, hn, hpos⟩
        have hne : q ≠ pattern := fun heq => hpath (by rw [heq])
        exact ⟨rfl, by rw [← count_erase_of_ne hne]; exact hn, hpos⟩
  size := by
    have hlast := h.remove_snd_iff pattern
    rw [size_remove, h.size]
    -- a pattern disappears with its last subscriber
    by_cases hone : m.count pattern = 1
    · have hmem : pattern ∈ m := Multiset.count_pos.mp (by omega)
      have herase : (m.erase pattern).toFinset = m.toFinset.erase pattern := by
        ext q
        rw [mem_toFinset, ← count_pos, Finset.mem_erase, mem_toFinset]
        by_cases hq : q = pattern
        · simp [hq, hone]
        · simp [hq, count_erase_of_ne hq, count_pos]
      rw [hlast.mpr hone, herase, Finset.card_erase_of_mem (Multiset.mem_toFinset.mpr hmem)]
      rfl
    · have hfalse : (t.remove pattern).2 = false := by simpa [hone] using hlast
      have hsame : (m.erase pattern).toFinset = m.toFinset := by
        ext q
        rw [mem_toFinset, mem_toFinset, ← count_pos, ← count_pos]
        by_cases hq : q = pattern
        · rw [hq, count_erase_self]
          omega
        · rw [count_erase_of_ne hq]
      rw [hfalse, hsame]
      rfl

end

end PatternTrie

end Pubsub
