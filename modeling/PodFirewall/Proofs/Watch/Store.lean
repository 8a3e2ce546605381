import PodFirewall.Watch.Change
import PodFirewall.Watch.Store

/-!
What a store says of its objects. Each arrival has the stamp of its place among
all arrivals, so equal stamps mean the same arrival, also across what a store
holds, what a listing has brought so far and what a tracker remembers. An
object that an event does not report is the one that was there before.
-/

namespace PodFirewall

variable {α : Type}

def Stored.Among (arrived : List (Kube.Object α)) (v : Stored α) : Prop :=
  arrived[v.stamp]? = some v.object

namespace Stored.Among

variable {arrived : List (Kube.Object α)} {v w : Stored α}

theorem eq (hv : v.Among arrived) (hw : w.Among arrived) (h : v.stamp = w.stamp) : v = w := by
  rw [Among, h, hw] at hv
  cases v
  cases w
  simp_all

theorem append (hv : v.Among arrived) (more : List (Kube.Object α)) :
    v.Among (arrived ++ more) := by
  obtain ⟨hlt, -⟩ := List.getElem?_eq_some_iff.1 hv
  rw [Among, List.getElem?_append_left hlt, hv]

theorem mem (hv : v.Among arrived) : v.object ∈ arrived := List.mem_of_getElem? hv

theorem new (arrived : List (Kube.Object α)) (o : Kube.Object α) :
    Among (arrived ++ [o]) ⟨arrived.length, o⟩ := by simp [Among]

end Stored.Among

namespace Store

def Keyed (arrived : List (Kube.Object α)) (m : OrdMap ObjectKey (Stored α)) : Prop :=
  ∀ key v, m.get? key = some v → v.Among arrived ∧ v.object.metadata.key? = some key

namespace Keyed

variable {arrived : List (Kube.Object α)} {m : OrdMap ObjectKey (Stored α)}

theorem empty (arrived : List (Kube.Object α)) : Keyed arrived ∅ := nofun

theorem append (h : Keyed arrived m) (more : List (Kube.Object α)) : Keyed (arrived ++ more) m :=
  fun key v hv => (h key v hv).imp_left fun hv => hv.append more

theorem insert (h : Keyed arrived m) {key : ObjectKey} {v : Stored α} (hv : v.Among arrived)
    (hkey : v.object.metadata.key? = some key) : Keyed arrived (m.insert key v) := by
  intro key' v' hv'
  by_cases hne : key' = key
  · subst hne
    rw [OrdMap.get?_insert_self, Option.some.injEq] at hv'
    exact hv' ▸ ⟨hv, hkey⟩
  · rw [OrdMap.get?_insert_of_ne _ _ hne] at hv'
    exact h key' v' hv'

theorem erase (h : Keyed arrived m) (key : ObjectKey) : Keyed arrived (m.erase key) := by
  intro key' v' hv'
  by_cases hne : key' = key
  · subst hne
    rw [OrdMap.get?_erase_self] at hv'
    cases hv'
  · rw [OrdMap.get?_erase_of_ne _ hne] at hv'
    exact h key' v' hv'

end Keyed

/-- Whether a store was fed with objects that arrived in the given order. -/
structure FedBy (arrived : List (Kube.Object α)) (s : Store α) : Prop where
  next : s.next = arrived.length
  objects : Keyed arrived s.objects
  listing : ∀ listing, s.listing = some listing → Keyed arrived listing

theorem fedBy_empty : (empty : Store α).FedBy [] := ⟨rfl, .empty [], nofun⟩

end Store

def WatchEvent.Brings (P : Kube.Object α → Prop) : WatchEvent α → Prop
  | .initApply o | .apply o => P o
  | .init | .initDone | .delete _ => True

namespace Store

variable {P : Kube.Object α → Prop} {arrived : List (Kube.Object α)} {s : Store α}
  {e : WatchEvent α} {key : ObjectKey}

/-! ### What an event does to a store -/

theorem settle_cases (s : Store α) (key : ObjectKey) (v : Stored α) :
    s.isNews key v = true ∧ s.settle key v = v ∨
      s.isNews key v = false ∧ s.objects.get? key = some (s.settle key v) := by
  unfold isNews settle
  cases s.objects.get? key with
  | none => exact .inl ⟨rfl, rfl⟩
  | some known => cases hsame : sameVersion known v <;> simp [hsame]

/-- The end of a listing adds nothing: what is listed had its place already. -/
theorem FedBy.completeListing (h : s.FedBy arrived) : s.completeListing.1.FedBy arrived := by
  refine ⟨h.next, fun key v hv => ?_, nofun⟩
  dsimp only [Store.completeListing] at hv
  rw [OrdMap.get?_map] at hv
  obtain ⟨listed, hlisted, rfl⟩ := Option.map_eq_some_iff.1 hv
  rcases settle_cases s key listed with ⟨-, hsettle⟩ | ⟨-, hknown⟩
  · rw [hsettle]
    cases hs : s.listing with
    | none =>
      rw [hs] at hlisted
      cases hlisted
    | some listing =>
      rw [hs] at hlisted
      exact h.listing listing hs key listed hlisted
  · exact h.objects key _ hknown

theorem FedBy.ingest (h : s.FedBy arrived) (harrived : ∀ o ∈ arrived, P o) (he : e.Brings P) :
    ∃ more, (s.ingest e).1.FedBy (arrived ++ more) ∧ ∀ o ∈ arrived ++ more, P o := by
  have hkept {s' : Store α} (h : s'.FedBy arrived) :
      ∃ more, s'.FedBy (arrived ++ more) ∧ ∀ o ∈ arrived ++ more, P o :=
    ⟨[], by rwa [List.append_nil], by rwa [List.append_nil]⟩
  have hadded {o : Kube.Object α} (ho : P o) : ∀ o' ∈ arrived ++ [o], P o' := by
    simpa [or_imp, forall_and, ho] using harrived
  have hnew {o : Kube.Object α} : Stored.Among (arrived ++ [o]) ⟨s.next, o⟩ :=
    h.next ▸ .new arrived o
  cases e with
  | init =>
    refine hkept ⟨h.next, h.objects, fun listing hlisting => ?_⟩
    rw [← Option.some.inj hlisting]
    exact .empty arrived
  | initApply o =>
    rw [Store.ingest]
    split
    · exact hkept h
    · rename_i key hkey
      refine ⟨[o], ⟨by simp [h.next], h.objects.append _, fun listing hlisting => ?_⟩, hadded he⟩
      rw [← Option.some.inj hlisting]
      refine Keyed.insert ?_ hnew hkey
      cases hs : s.listing with
      | none => exact .empty _
      | some listing => exact (h.listing listing hs).append _
  | initDone => exact hkept h.completeListing
  | apply o =>
    rw [Store.ingest]
    split
    · exact hkept h
    · rename_i key hkey
      split
      · refine ⟨[o], ⟨by simp [h.next], (h.objects.append _).insert hnew hkey, ?_⟩, hadded he⟩
        exact fun listing hlisting => (h.listing listing hlisting).append _
      · exact hkept h
  | delete o =>
    rw [Store.ingest]
    split
    · exact hkept h
    · split
      · exact hkept ⟨h.next, h.objects.erase _, h.listing⟩
      · exact hkept h

def Supplied (P : Kube.Object α → Prop) (s : Store α) : Prop :=
  ∃ arrived, s.FedBy arrived ∧ ∀ o ∈ arrived, P o

theorem Supplied.ingest (h : s.Supplied P) (he : e.Brings P) : (s.ingest e).1.Supplied P := by
  obtain ⟨arrived, hfed, harrived⟩ := h
  obtain ⟨more, hs, hmore⟩ := hfed.ingest harrived he
  exact ⟨arrived ++ more, hs, hmore⟩

theorem Supplied.mono {Q : Kube.Object α → Prop} (h : s.Supplied P) (himp : ∀ o, P o → Q o) :
    s.Supplied Q :=
  h.imp fun _ h => ⟨h.1, fun o ho => himp o (h.2 o ho)⟩

theorem FedBy.ingestAll {events : List (WatchEvent α)} (h : s.FedBy arrived)
    (harrived : ∀ o ∈ arrived, P o) (hevents : ∀ e ∈ events, e.Brings P) :
    ∃ more, (s.ingestAll events).1.FedBy (arrived ++ more) ∧ ∀ o ∈ arrived ++ more, P o := by
  induction events generalizing s arrived with
  | nil => exact ⟨[], by rwa [List.append_nil], by rwa [List.append_nil]⟩
  | cons e rest ih =>
    obtain ⟨he, hrest⟩ := List.forall_mem_cons.1 hevents
    obtain ⟨more, hs, hmore⟩ := h.ingest harrived he
    obtain ⟨more', hs', hmore'⟩ := ih hs hmore hrest
    rw [List.append_assoc] at hs' hmore'
    exact ⟨more ++ more', hs', hmore'⟩

theorem fedBy_ofListing (objects : List (Kube.Object α)) (h : ∀ o ∈ objects, P o) :
    ∃ arrived, (ofListing objects).FedBy arrived ∧ ∀ o ∈ arrived, P o := by
  refine fedBy_empty.ingestAll (P := P) (by simp) fun e he => ?_
  simp only [listingOf, List.cons_append, List.mem_cons, List.mem_append, List.mem_map,
    List.not_mem_nil, or_false] at he
  rcases he with rfl | ⟨o, ho, rfl⟩ | rfl
  · trivial
  · exact h o ho
  · trivial

theorem ready_ingest (h : s.ready = true) (e : WatchEvent α) : (s.ingest e).1.ready = true := by
  unfold ingest
  split
  · exact h
  · split <;> exact h
  · rfl
  · split
    · exact h
    · split <;> exact h
  · split
    · exact h
    · split <;> exact h

theorem get?_completeListing_of_not_mem (h : key ∉ s.completeListing.2) :
    s.completeListing.1.get? key = s.get? key := by
  dsimp only [completeListing] at h ⊢
  rw [List.mem_append, not_or, OrdMap.mem_keys, List.mem_filter] at h
  obtain ⟨hnews, hgone⟩ := h
  rw [get?, get?, OrdMap.get?_map]
  cases hlisted : (s.listing.getD ∅).get? key with
  | none =>
    rw [OrdMap.mem_keys, OrdMap.contains, hlisted] at hgone
    symm
    simpa using hgone
  | some v =>
    rcases settle_cases s key v with ⟨hnew, -⟩ | ⟨-, hknown⟩
    · rw [OrdMap.get?_filter_eq_some_iff.2 ⟨hlisted, hnew⟩] at hnews
      exact absurd rfl hnews
    · exact hknown.symm

/-- An object that an event does not report stays as it is. -/
theorem get?_ingest_of_not_mem (h : key ∉ (s.ingest e).2) :
    (s.ingest e).1.get? key = s.get? key := by
  cases e with
  | init => rfl
  | initApply o =>
    rw [ingest]
    split <;> rfl
  | initDone => exact get?_completeListing_of_not_mem h
  | apply o =>
    revert h
    rw [ingest]
    split
    · exact fun _ => rfl
    · split
      · exact fun h => OrdMap.get?_insert_of_ne _ _ (by simpa using h)
      · exact fun _ => rfl
  | delete o =>
    revert h
    rw [ingest]
    split
    · exact fun _ => rfl
    · split
      · exact fun h => OrdMap.get?_erase_of_ne _ (by simpa using h)
      · exact fun _ => rfl

theorem mem_list {p : Kube.Object α → Bool} {v : Stored α} :
    v ∈ s.list p ↔ (∃ key, s.get? key = some v) ∧ p v.object = true := by
  rw [list, List.mem_filter, OrdMap.values, List.mem_map]
  refine and_congr_left fun _ => ⟨?_, fun ⟨key, hkey⟩ => ?_⟩
  · rintro ⟨e, he, rfl⟩
    exact ⟨e.1, OrdMap.get?_eq_some_iff.2 he⟩
  · exact ⟨(key, v), OrdMap.get?_eq_some_iff.1 hkey, rfl⟩

end Store

/-! ### What a tracker remembers -/

namespace Tracker

variable {t : Tracker ObjectKey (Stored α)} {key : ObjectKey} {current : Option (Stored α)}
  {change : Change (Stored α)}

theorem check_eq_some (h : t.check key current = some change) :
    change.old = t.processed.get? key ∧ change.new = current := by
  unfold check Change.between? at h
  split at h
  · cases h
  · rename_i hold
    obtain rfl := Option.some.inj h
    exact ⟨hold.symm, rfl⟩
  · rename_i hold
    obtain rfl := Option.some.inj h
    exact ⟨hold.symm, rfl⟩
  · rename_i hold
    split at h
    · cases h
    · obtain rfl := Option.some.inj h
      exact ⟨hold.symm, rfl⟩

theorem isSome_of_check (h : t.check key current = some change) :
    change.new.isSome = true ∨ change.old.isSome = true := by
  unfold check Change.between? at h
  split at h
  · cases h
  · obtain rfl := Option.some.inj h
    exact .inl rfl
  · obtain rfl := Option.some.inj h
    exact .inr rfl
  · split at h
    · cases h
    · obtain rfl := Option.some.inj h
      exact .inl rfl

/-- There is a change exactly if what was processed is another arrival than what
there is now, or only one of the two is there. -/
theorem isSome_check : (t.check key current).isSome = true ↔
    (t.processed.get? key).map (·.stamp) ≠ current.map (·.stamp) := by
  unfold check Change.between?
  rcases t.processed.get? key with _ | old <;> rcases current with _ | new
  · simp
  · simp
  · simp
  · by_cases hstamp : old.stamp = new.stamp <;> simp [BEq.beq, hstamp]

theorem get?_eq_none_of_check (h : t.check key none = none) : t.processed.get? key = none := by
  unfold check Change.between? at h
  split at h <;> simp_all

/-- If there is no change, the object was processed as it is now. -/
theorem check_eq_none {arrived : List (Kube.Object α)} (ht : Store.Keyed arrived t.processed)
    (hcurrent : ∀ v, current = some v → v.Among arrived) (h : t.check key current = none) :
    t.processed.get? key = current := by
  unfold check Change.between? at h
  split at h
  · assumption
  · cases h
  · cases h
  · rename_i old new hold
    split at h
    · rename_i hstamp
      rw [hold]
      exact congrArg some ((ht key old hold).1.eq (hcurrent new rfl) (beq_iff_eq.1 hstamp))
    · cases h

theorem get?_done_self (t : Tracker ObjectKey (Stored α)) (key : ObjectKey)
    (change : Change (Stored α)) : (t.done key change).processed.get? key = change.new := by
  unfold done
  split
  · rename_i h
    rw [OrdMap.get?_insert_self, h]
  · rename_i h
    rw [OrdMap.get?_erase_self, h]

theorem get?_done_of_ne (t : Tracker ObjectKey (Stored α)) {key key' : ObjectKey} (h : key' ≠ key)
    (change : Change (Stored α)) :
    (t.done key change).processed.get? key' = t.processed.get? key' := by
  unfold done
  split
  · exact OrdMap.get?_insert_of_ne _ _ h
  · exact OrdMap.get?_erase_of_ne _ h

theorem keyed_done {arrived : List (Kube.Object α)} (ht : Store.Keyed arrived t.processed)
    (hnew : ∀ v, change.new = some v →
      v.Among arrived ∧ v.object.metadata.key? = some key) :
    Store.Keyed arrived (t.done key change).processed := by
  unfold done
  split
  · rename_i v hv
    exact ht.insert (hnew v hv).1 (hnew v hv).2
  · exact ht.erase key

end Tracker

end PodFirewall
