import AnySync.Pubsub.Trie
import Mathlib.Data.List.Nodup

/-!
# Matching topics

`Match` of `commonspace/pubsub/trie.go`, and what the trie is for: it finds the patterns that have
subscribers and match a topic segment by segment.
-/

namespace Pubsub

/-! ## The walk -/

namespace TrieLevel

/-- `matchNode`, with `matchLevel` on the remaining segments. -/
def matchNode (rest : List GoString) (matchLevel : Option TrieLevel → List GoString → List GoString)
    (node : TrieNode) (dst : List GoString) : List GoString :=
  if rest = [] then
    if 0 < node.refs then dst ++ [node.pattern] else dst
  else matchLevel node.next dst

/-- `matchLevel`. -/
def matchLevel : List GoString → Option TrieLevel → List GoString → List GoString
  | [], _, dst => dst
  | _ :: _, none, dst => dst
  | seg :: rest, some l, dst =>
    let dst := match l.fwc with
      | some node => if 0 < node.refs then dst ++ [node.pattern] else dst
      | none => dst
    let dst := match l.pwc with
      | some node => matchNode rest (matchLevel rest) node dst
      | none => dst
    match l.literal seg with
    | some node => matchNode rest (matchLevel rest) node dst
    | none => dst

end TrieLevel

variable {segs path : List GoString}

/-- `Match`. -/
def PatternTrie.matchTopic (t : PatternTrie) (topic : GoString) (dst : List GoString) :
    List GoString :=
  TrieLevel.matchLevel (splitTopic topic) (some t.root) dst

/-! ## Matching segment by segment -/

/-- The segments of a pattern match those of a topic: a star stands for one segment, and
greater-than at the end for one or more. -/
def SegsMatch : List GoString → List GoString → Prop
  | [], [] => True
  | p :: ps, s :: ss =>
    (p = wildcardTail ∧ ps = []) ∨ ((p = wildcardOne ∨ p = s) ∧ SegsMatch ps ss)
  | _, _ => False

/-- The patterns of a topic as paths, in the order of `Match`. -/
def candidates : List GoString → List (List GoString)
  | [] => [[]]
  | seg :: rest =>
    [wildcardTail] ::
      ((candidates rest).map (wildcardOne :: ·) ++ (candidates rest).map (seg :: ·))

theorem mem_candidates :
    path ∈ candidates segs ↔ SegsMatch path segs := by
  induction segs generalizing path with
  | nil => cases path <;> simp [candidates, SegsMatch]
  | cons seg rest ih =>
    cases path with
    | nil => simp [candidates, SegsMatch]
    | cons p ps =>
      simp only [candidates, SegsMatch, List.mem_cons, List.mem_append, List.mem_map, ih,
        List.cons.injEq]
      grind

theorem ne_nil_of_mem_candidates (hsegs : segs ≠ []) (h : path ∈ candidates segs) : path ≠ [] := by
  rw [mem_candidates] at h
  rintro rfl
  obtain ⟨seg, rest, rfl⟩ := List.exists_cons_of_ne_nil hsegs
  exact h

/-- Without wildcards in the topic, no path is there twice. -/
theorem nodup_candidates (hone : wildcardOne ∉ segs) (htail : wildcardTail ∉ segs) :
    (candidates segs).Nodup := by
  induction segs with
  | nil => simp [candidates]
  | cons seg rest ih =>
    have ih := ih (fun h => hone (List.mem_cons_of_mem _ h))
      (fun h => htail (List.mem_cons_of_mem _ h))
    have hinj : ∀ s : GoString, Function.Injective (s :: · : List GoString → _) :=
      fun s _ _ h => (List.cons.inj h).2
    rw [candidates, List.nodup_cons, List.nodup_append]
    refine ⟨?_, ih.map (hinj _), ih.map (hinj _), ?_⟩
    · -- the first segments tell the three kinds apart
      have hne : wildcardTail ≠ wildcardOne := by decide
      have hseg : wildcardTail ≠ seg := fun h => htail (by simp [h])
      simp [hne.symm, hseg.symm]
    · have hseg : wildcardOne ≠ seg := fun h => hone (by simp [h])
      intro a ha b hb heq
      obtain ⟨x, -, rfl⟩ := List.mem_map.mp ha
      obtain ⟨y, -, rfl⟩ := List.mem_map.mp hb
      exact hseg (List.cons.inj heq).1

/-! ## The walk visits the candidates -/

namespace TrieLevel

/-- The patterns that have subscribers, of some paths. -/
def livePatterns (leaf : List GoString → Option (GoString × ℕ)) (paths : List (List GoString)) :
    List GoString :=
  paths.filterMap fun path => (leaf path).map Prod.fst

/-- A node collects what is at the candidates of the remaining segments. -/
theorem matchNode_eq {rest : List GoString} {go : Option TrieLevel → List GoString → List GoString}
    (hgo : rest ≠ [] → ∀ l dst,
      go l dst = dst ++ livePatterns (fun path => l.bind (leaf path)) (candidates rest))
    (node : TrieNode) (dst : List GoString) :
    matchNode rest go node dst =
      dst ++ livePatterns (fun path => node.leafAt path) (candidates rest) := by
  rw [matchNode]
  by_cases hrest : rest = []
  · rw [if_pos hrest, hrest]
    by_cases hpos : 0 < node.refs
    · simp [livePatterns, candidates, TrieNode.leafAt, TrieNode.leaf, hpos]
    · simp [livePatterns, candidates, TrieNode.leafAt, TrieNode.leaf, hpos]
  · rw [if_neg hrest, hgo hrest, livePatterns, livePatterns]
    congr 1
    apply List.filterMap_congr
    intro path hpath
    rw [TrieNode.leafAt, if_neg (ne_nil_of_mem_candidates hrest hpath)]

theorem livePatterns_map_cons (l : TrieLevel) (seg : GoString) (paths : List (List GoString)) :
    livePatterns (fun path => leaf path l) (paths.map (seg :: ·)) =
      livePatterns (fun path => (l.child seg).bind (·.leafAt path)) paths := by
  rw [livePatterns, livePatterns, List.filterMap_map]
  rfl

/-- `matchLevel` appends the patterns at the candidates of the topic. -/
theorem matchLevel_eq {segs : List GoString} (hone : wildcardOne ∉ segs)
    (htail : wildcardTail ∉ segs) (hsegs : segs ≠ []) (l : Option TrieLevel) (dst : List GoString) :
    matchLevel segs l dst =
      dst ++ livePatterns (fun path => l.bind (leaf path)) (candidates segs) := by
  induction segs generalizing l dst with
  | nil => exact absurd rfl hsegs
  | cons seg rest ih =>
    cases l with
    | none => simp [matchLevel, livePatterns]
    | some l =>
      have hgo := fun hrest => ih (fun h => hone (List.mem_cons_of_mem _ h))
        (fun h => htail (List.mem_cons_of_mem _ h)) hrest
      -- the three slots, each as a child
      have hfwc : l.fwc = l.child wildcardTail := rfl
      have hpwc : l.pwc = l.child wildcardOne := rfl
      have hlit : l.literal seg = l.child seg := by
        rw [child, if_neg (fun h => hone (by simp [h])), if_neg (fun h => htail (by simp [h]))]
      have hslot : ∀ (node : Option TrieNode) (dst : List GoString),
          (match node with
            | some node => matchNode rest (matchLevel rest) node dst
            | none => dst) =
          dst ++ livePatterns (fun path => node.bind (·.leafAt path)) (candidates rest) := by
        intro node dst
        cases node with
        | none => simp [livePatterns]
        | some node => exact matchNode_eq hgo node dst
      have htailSlot : ∀ (node : Option TrieNode) (dst : List GoString),
          (match node with
            | some node => if 0 < node.refs then dst ++ [node.pattern] else dst
            | none => dst) =
          dst ++ livePatterns (fun path => node.bind (·.leafAt path)) [[]] := by
        intro node dst
        cases node with
        | none => simp [livePatterns]
        | some node =>
          by_cases hpos : 0 < node.refs
          · simp [livePatterns, TrieNode.leafAt, TrieNode.leaf, hpos]
          · simp [livePatterns, TrieNode.leafAt, TrieNode.leaf, hpos]
      have happend : ∀ a b, livePatterns (fun path => leaf path l) (a ++ b) =
          livePatterns (fun path => leaf path l) a ++ livePatterns (fun path => leaf path l) b :=
        fun a b => List.filterMap_append
      have hcandidates : candidates (seg :: rest) = [[]].map (wildcardTail :: ·) ++
          ((candidates rest).map (wildcardOne :: ·) ++ (candidates rest).map (seg :: ·)) := rfl
      change matchLevel (seg :: rest) (some l) dst =
        dst ++ livePatterns (fun path => leaf path l) (candidates (seg :: rest))
      rw [matchLevel, htailSlot, hslot, hslot, hcandidates, happend, happend,
        livePatterns_map_cons, livePatterns_map_cons, livePatterns_map_cons, hfwc, hpwc, hlit]
      simp only [List.append_assoc]

end TrieLevel

/-! ## Runs -/

/-- A call that changes the trie. -/
inductive TrieCall
  | add (pattern : GoString)
  | remove (pattern : GoString)

namespace PatternTrie

variable {topic : GoString}

/-- The trie after a call. -/
def step (t : PatternTrie) : TrieCall → PatternTrie
  | .add pattern => (t.add pattern).1
  | .remove pattern => (t.remove pattern).1

/-- The trie after some calls. -/
def run (calls : List TrieCall) : PatternTrie := calls.foldl step new

/-- The references after a call: `Remove` takes one away if there is one. -/
def stepLive (m : Multiset GoString) : TrieCall → Multiset GoString
  | .add pattern => pattern ::ₘ m
  | .remove pattern => m.erase pattern

/-- The patterns that were added, without those that were effectively removed. -/
def live (calls : List TrieCall) : Multiset GoString := calls.foldl stepLive 0

theorem Represents.step {t : PatternTrie} {m : Multiset GoString} (h : t.Represents m)
    (call : TrieCall) : (t.step call).Represents (stepLive m call) := by
  cases call with
  | add pattern => exact h.add pattern
  | remove pattern => exact h.remove pattern

/-- The trie stands for the live patterns after any calls. -/
theorem represents_run (calls : List TrieCall) : (run calls).Represents (live calls) := by
  have hfold : ∀ {t : PatternTrie} {m : Multiset GoString}, t.Represents m →
      (calls.foldl PatternTrie.step t).Represents (calls.foldl stepLive m) := by
    induction calls with
    | nil => exact id
    | cons call calls ih => exact fun h => ih (h.step call)
  exact hfold represents_new

/-- The patterns that `Match` finds for a topic. -/
def found (t : PatternTrie) (topic : GoString) : List GoString :=
  TrieLevel.livePatterns (fun path => t.root.leaf path) (candidates (splitTopic topic))

theorem notMem_of_validateTopic (h : validateTopic topic = true) :
    wildcardOne ∉ splitTopic topic ∧ wildcardTail ∉ splitTopic topic := by
  simp only [validateTopic, Bool.and_eq_true, List.all_eq_true, Bool.not_eq_true'] at h
  constructor
  · intro hmem
    exact absurd (h.2 _ hmem) (by decide)
  · intro hmem
    exact absurd (h.2 _ hmem) (by decide)

theorem matchTopic_eq (t : PatternTrie) (h : validateTopic topic = true) (dst : List GoString) :
    t.matchTopic topic dst = dst ++ t.found topic := by
  obtain ⟨hone, htail⟩ := notMem_of_validateTopic h
  exact TrieLevel.matchLevel_eq hone htail (splitTopic_ne_nil topic) (some t.root) dst

variable {t : PatternTrie} {m : Multiset GoString}

theorem Represents.mem_found (h : t.Represents m) (topic q : GoString) :
    q ∈ t.found topic ↔ q ∈ m ∧ SegsMatch (splitTopic q) (splitTopic topic) := by
  simp only [found, TrieLevel.livePatterns, List.mem_filterMap, Option.map_eq_some_iff,
    Prod.exists, exists_and_right, exists_eq_right, h.leaf, mem_candidates]
  constructor
  · rintro ⟨path, hmatch, n, rfl, hcount, hpos⟩
    exact ⟨Multiset.count_pos.mp (by omega), hmatch⟩
  · rintro ⟨hmem, hmatch⟩
    exact ⟨_, hmatch, _, rfl, rfl, Multiset.count_pos.mpr hmem⟩

/-- Every pattern has one path. -/
theorem Represents.nodup_found (h : t.Represents m) (hvalid : validateTopic topic = true) :
    (t.found topic).Nodup := by
  obtain ⟨hone, htail⟩ := notMem_of_validateTopic hvalid
  refine List.Nodup.filterMap ?_ (nodup_candidates hone htail)
  intro path path' q hq hq'
  simp only [Option.mem_def, Option.map_eq_some_iff, Prod.exists, exists_and_right,
    exists_eq_right, h.leaf] at hq hq'
  obtain ⟨-, rfl, -⟩ := hq
  obtain ⟨-, rfl, -⟩ := hq'
  rfl

/-- Tries that stand for the same patterns have the same paths. -/
theorem Represents.leaf_eq {t' : PatternTrie} (h : t.Represents m) (h' : t'.Represents m)
    (path : List GoString) : t'.root.leaf path = t.root.leaf path := by
  apply Option.ext
  rintro ⟨q, n⟩
  rw [h.leaf, h'.leaf]

/-- After any calls, `Match` finds exactly the live patterns that match the topic, each once, `Len`
is their number, `Add` and `Remove` report the first and the last reference, and removing a
pattern that is not there changes nothing. -/
theorem trie_exact (calls : List TrieCall) :
    (∀ topic, validateTopic topic = true → ∀ dst,
      ∃ found, (run calls).matchTopic topic dst = dst ++ found ∧ found.Nodup ∧
        ∀ q, q ∈ found ↔ q ∈ live calls ∧ SegsMatch (splitTopic q) (splitTopic topic)) ∧
      (run calls).len = (live calls).toFinset.card ∧
      ∀ pattern,
        (((run calls).add pattern).2 = true ↔ pattern ∉ live calls) ∧
        (((run calls).remove pattern).2 = true ↔ (live calls).count pattern = 1) ∧
        (pattern ∉ live calls → ((run calls).remove pattern).1.len = (run calls).len ∧
          (∀ path, ((run calls).remove pattern).1.root.leaf path = (run calls).root.leaf path) ∧
          ∀ topic, validateTopic topic = true → ∀ dst,
            ((run calls).remove pattern).1.matchTopic topic dst =
              (run calls).matchTopic topic dst) := by
  have h := represents_run calls
  refine ⟨?_, h.size, fun pattern => ⟨h.add_snd pattern, h.remove_snd_iff pattern, ?_⟩⟩
  · intro topic hvalid dst
    exact ⟨_, matchTopic_eq _ hvalid dst, h.nodup_found hvalid, h.mem_found topic⟩
  · intro hnot
    have hremove := h.remove pattern
    rw [Multiset.erase_of_notMem hnot] at hremove
    have hleaf := h.leaf_eq hremove
    refine ⟨hremove.size.trans h.size.symm, hleaf, ?_⟩
    intro topic hvalid dst
    rw [matchTopic_eq _ hvalid, matchTopic_eq _ hvalid, found, found]
    simp only [hleaf]

/-- `a/*` twice, `a/>` and `b`, of which one `a/*` and `b` are removed; the topic is `a/c`. -/
theorem trie_exact_sample :
    ∃ found,
      (run [.add [97, 47, 42], .add [97, 47, 42], .add [97, 47, 62], .add [98],
        .remove [97, 47, 42],
        .remove [98], .remove [98]]).matchTopic [97, 47, 99] [] = [] ++ found ∧ found.Nodup := by
  obtain ⟨found, heq, hnodup, -⟩ := (trie_exact _).1 [97, 47, 99] (by decide +kernel) []
  exact ⟨found, heq, hnodup⟩

example : (run [.add [97, 47, 42], .add [97, 47, 62], .add [98], .remove [98]]).matchTopic
    [97, 47, 99] [] = [[97, 47, 62], [97, 47, 42]] := by
  decide +kernel

end PatternTrie

end Pubsub
