import AnySync.Ldiff.Elements

/-!
# The contents of a container

Components that keep a container use it as a map from ids to heads. The digests, the ranges and
the order of the elements do not matter to them.

The main result is `Container.run_holds`.
-/

namespace Ldiff

/-- The elements of a container: ids with their heads. -/
abbrev Contents := GoMap GoString GoString

namespace Contents

/-- `Set`. -/
def set (m : Contents) (elements : List Element) : Contents :=
  elements.foldl (fun m e => m.insert e.id e.head) m

/-- `RemoveId`. -/
def removeId (m : Contents) (id : GoString) : Contents := m.erase id

/-- A call. -/
def apply (m : Contents) : Op → Contents
  | .set elements _ => m.set elements
  | .removeId id _ => m.removeId id

variable {m : Contents} {elements : List Element} {e : Element} {id : GoString}

@[simp]
theorem set_nil : m.set [] = m := rfl

theorem set_cons : m.set (e :: elements) = Contents.set (m.insert e.id e.head) elements := rfl

/-- Setting elements leaves every other id alone. -/
theorem lookup_set_of_forall_ne (hne : ∀ e ∈ elements, e.id ≠ id) :
    (m.set elements).lookup id = m.lookup id := by
  induction elements generalizing m with
  | nil => rfl
  | cons e elements ih =>
    obtain ⟨he, helements⟩ := List.forall_mem_cons.mp hne
    rw [set_cons, ih helements, GoMap.lookup_insert_eq, if_neg (Ne.symm he)]

/-- If elements with one id have one head, that head is set. -/
theorem lookup_set_of_mem (he : e ∈ elements)
    (hunique : ∀ e' ∈ elements, e'.id = e.id → e'.head = e.head) :
    (m.set elements).lookup e.id = some e.head := by
  induction elements generalizing m with
  | nil => cases he
  | cons e' elements ih =>
    obtain ⟨hhead, htail⟩ := List.forall_mem_cons.mp hunique
    rw [set_cons]
    by_cases hmem : e ∈ elements
    · exact ih hmem htail
    · obtain rfl : e = e' := (List.mem_cons.mp he).resolve_right hmem
      by_cases hlater : ∃ x ∈ elements, x.id = e.id
      · obtain ⟨x, hx, hid⟩ := hlater
        have hxe : x = e := by
          obtain ⟨xid, xhead⟩ := x
          obtain rfl : xid = e.id := hid
          obtain rfl : xhead = e.head := htail _ hx rfl
          rfl
        exact absurd (hxe ▸ hx) hmem
      · rw [lookup_set_of_forall_ne fun x hx hid => hlater ⟨x, hx, hid⟩,
          GoMap.lookup_insert_eq, if_pos rfl]

end Contents

namespace Container

/-- The container has one element for each id of the map, with its head. -/
structure Holds (d : Container) (m : Contents) : Prop where
  nodup : (d.sl.map (·.id)).Nodup
  mem : ∀ e, e ∈ d.elements ↔ m.lookup e.id = some e.head

section Holds

variable {H : Hashing} {fuel : ℕ} {d d' : Container} {m : Contents} {e : Element}
  {elements : List Element} {id : GoString} {ord : RangeOrder}

theorem recalculate_sl (hok : d.recalculate H ord = .ok d') : d'.sl = d.sl := by
  obtain ⟨h', -, hd'⟩ := Except.bind_eq_ok.mp hok
  exact Except.ok.inj hd' ▸ rfl

theorem mem_elements {d : Container} : e ∈ d.elements ↔ ∃ x ∈ d.sl, x.toElement = e :=
  List.mem_map

/-- `setElement` acts on the contents as a map insertion. -/
theorem Holds.setElement (h : Holds d m) (hok : d.setElement H fuel e = .ok d') :
    Holds d' (m.insert e.id e.head) := by
  obtain ⟨h', -, hd'⟩ := Except.bind_eq_ok.mp hok
  obtain rfl := Except.ok.inj hd'
  constructor
  · rw [(slSet_perm.map _).nodup_iff, List.map_cons, List.nodup_cons]
    constructor
    · rw [List.mem_map]
      rintro ⟨x, hx, hid⟩
      exact (mem_slRemove.mp hx).2 hid
    · exact h.nodup.sublist (List.filter_sublist.map _)
  · intro e'
    rw [mem_elements, GoMap.lookup_insert_eq]
    constructor
    · rintro ⟨x, hx, rfl⟩
      rcases mem_slSet.mp hx with rfl | hx
      · exact if_pos rfl
      · obtain ⟨hx, hid⟩ := mem_slRemove.mp hx
        rw [if_neg hid]
        exact (h.mem x.toElement).mp (List.mem_map_of_mem hx)
    · split
      · next hid =>
        intro hhead
        refine ⟨_, mem_slSet.mpr (.inl rfl), ?_⟩
        obtain ⟨id', head'⟩ := e'
        obtain rfl : id' = e.id := hid
        obtain rfl := Option.some.inj hhead
        rfl
      · next hid =>
        intro hlookup
        obtain ⟨x, hx, rfl⟩ := mem_elements.mp ((h.mem e').mpr hlookup)
        exact ⟨x, mem_slSet.mpr (.inr (mem_slRemove.mpr ⟨hx, hid⟩)), rfl⟩

theorem Holds.congr_sl (h : Holds d m) (hsl : d'.sl = d.sl) : Holds d' m := by
  constructor
  · exact hsl ▸ h.nodup
  · intro e
    rw [elements, hsl]
    exact h.mem e

/-- `Set` on the container and on the map. -/
theorem Holds.set (h : Holds d m) (hok : d.set H fuel elements ord = .ok d') :
    Holds d' (m.set elements) := by
  obtain ⟨d₁, hfold, hrecalculate⟩ := Except.bind_eq_ok.mp hok
  refine Holds.congr_sl ?_ (recalculate_sl hrecalculate)
  clear hok hrecalculate
  induction elements generalizing d m with
  | nil =>
    obtain rfl := Except.ok.inj hfold
    exact h
  | cons e elements ih =>
    obtain ⟨d₂, hset, hfold⟩ := foldlM_cons_eq_ok.mp hfold
    exact ih (h.setElement hset) hfold

/-- `RemoveId` acts on the contents as a map deletion. -/
theorem Holds.removeId (h : Holds d m) (hok : d.removeId H fuel id ord = .ok d') :
    Holds d' (m.removeId id) := by
  unfold Container.removeId at hok
  simp only at hok
  split at hok
  · next hall =>
    -- there is no element with the id
    obtain rfl := Except.ok.inj hok
    refine ⟨h.nodup, fun e => ?_⟩
    rw [h.mem, Contents.removeId, GoMap.lookup_erase_eq]
    split
    · next hid =>
      refine iff_of_false (fun hlookup => ?_) (by simp)
      obtain ⟨x, hx, rfl⟩ := mem_elements.mp ((h.mem e).mpr hlookup)
      have hne := of_decide_eq_true (List.all_eq_true.mp hall x hx)
      exact hne (compare_eq_eq.mpr hid)
    · rfl
  · obtain ⟨h', -, hrecalculate⟩ := Except.bind_eq_ok.mp hok
    refine Holds.congr_sl (d := { sl := _, ranges := h' }) ?_ (recalculate_sl hrecalculate)
    refine ⟨h.nodup.sublist (List.filter_sublist.map _), fun e => ?_⟩
    rw [mem_elements, Contents.removeId, GoMap.lookup_erase_eq]
    constructor
    · rintro ⟨x, hx, rfl⟩
      obtain ⟨hx, hid⟩ := mem_slRemove.mp hx
      rw [if_neg hid]
      exact (h.mem x.toElement).mp (List.mem_map_of_mem hx)
    · split
      · exact fun h => by cases h
      · next hid =>
        intro hlookup
        obtain ⟨x, hx, rfl⟩ := mem_elements.mp ((h.mem e).mpr hlookup)
        exact ⟨x, mem_slRemove.mpr ⟨hx, hid⟩, rfl⟩

/-- A run of calls on a new container holds what the calls make of the empty map. -/
theorem run_holds {divideFactor compareThreshold : ℤ} {ops : List Op}
    (hrun : run H fuel divideFactor compareThreshold ord ops = .ok d) :
    Holds d (ops.foldl Contents.apply ∅) := by
  obtain ⟨d₀, hnew, hfold⟩ := Except.bind_eq_ok.mp hrun
  have hd₀ : Holds d₀ ∅ := by
    obtain ⟨h, -, hnew⟩ := Except.bind_eq_ok.mp hnew
    obtain ⟨h', -, hnew⟩ := Except.bind_eq_ok.mp hnew
    obtain rfl := Except.ok.inj hnew
    exact ⟨List.nodup_nil, fun e => by simp [elements]⟩
  clear hrun hnew
  generalize (∅ : Contents) = m at hd₀
  induction ops generalizing d₀ m with
  | nil =>
    obtain rfl := Except.ok.inj hfold
    exact hd₀
  | cons op ops ih =>
    obtain ⟨d₁, happly, hfold⟩ := foldlM_cons_eq_ok.mp hfold
    refine ih d₁ hfold _ ?_
    cases op with
    | set elements ord => exact hd₀.set happly
    | removeId id ord => exact hd₀.removeId happly

end Holds

end Container

end Ldiff
