import Mathlib.Data.List.Induction
import PodFirewall.Proofs.Watch.Store

/-!
What an event reports. The keys that an event of a watch is said to change are
just those whose object is another arrival after it, or is there only before or
only after it. What makes this exact is that no arrival is stored and listed at
once: so an object that takes its place at the end of a listing is either the
one that was known or an arrival that was not stored before. For the same reason
an arrival that lost its place in the store never gets it back.
-/

namespace PodFirewall

variable {α : Type}

theorem Stored.Among.lt {arrived : List (Kube.Object α)} {v : Stored α} (h : v.Among arrived) :
    v.stamp < arrived.length :=
  (List.getElem?_eq_some_iff.1 h).1

namespace Store

variable {arrived : List (Kube.Object α)} {s : Store α} {e : WatchEvent α} {key : ObjectKey}

/-- What an event can do to a store, with the keys that it reports. -/
inductive Ingests (s : Store α) : WatchEvent α → Store α × List ObjectKey → Prop where
  | init : s.Ingests .init ({ s with listing := some ∅ }, [])
  | listed (o : Kube.Object α) (key : ObjectKey) : o.metadata.key? = some key →
      s.Ingests (.initApply o) ({ s with
        listing := some ((s.listing.getD ∅).insert key ⟨s.next, o⟩), next := s.next + 1 }, [])
  | done : s.Ingests .initDone s.completeListing
  | stored (o : Kube.Object α) (key : ObjectKey) : o.metadata.key? = some key →
      s.isNews key ⟨s.next, o⟩ = true → s.Ingests (.apply o) ({ s with
        objects := s.objects.insert key ⟨s.next, o⟩, next := s.next + 1 }, [key])
  | removed (o : Kube.Object α) (key : ObjectKey) : o.metadata.key? = some key →
      s.objects.contains key = true →
      s.Ingests (.delete o) ({ s with objects := s.objects.erase key }, [key])
  /-- An object has no name, is known in that version or is not there. -/
  | passed (e : WatchEvent α) : s.Ingests e (s, [])

theorem ingests (s : Store α) (e : WatchEvent α) : s.Ingests e (s.ingest e) := by
  cases e with
  | init => exact .init
  | initApply o =>
    rw [ingest]
    split
    · exact .passed _
    · exact .listed o _ ‹_›
  | initDone => exact .done
  | apply o =>
    rw [ingest]
    split
    · exact .passed _
    · split
      · exact .stored o _ ‹_› ‹_›
      · exact .passed _
  | delete o =>
    rw [ingest]
    split
    · exact .passed _
    · split
      · exact .removed o _ ‹_› ‹_›
      · exact .passed _

theorem FedBy.listed (h : s.FedBy arrived) : Keyed arrived (s.listing.getD ∅) := by
  cases hs : s.listing with
  | none => exact .empty arrived
  | some listing => exact h.listing listing hs

/-- The next arrival is none of those that are stored or listed. -/
theorem FedBy.stamp_lt {m : OrdMap ObjectKey (Stored α)} {v : Stored α} (h : s.FedBy arrived)
    (hm : Keyed arrived m) (hv : m.get? key = some v) : v.stamp < s.next :=
  h.next ▸ (hm key v hv).1.lt

def Apart (s : Store α) : Prop :=
  ∀ key key' v w, s.get? key = some v → (s.listing.getD ∅).get? key' = some w → v.stamp ≠ w.stamp

theorem apart_empty : (empty : Store α).Apart := by
  intro key key' v w hv
  cases hv

/-- An event only brings arrivals that are new, or takes listed ones over when
the listing is done. -/
theorem Apart.ingest (h : s.Apart) (hfed : s.FedBy arrived) (e : WatchEvent α) :
    (s.ingest e).1.Apart := by
  intro key key' v w hv hw
  have hingests := s.ingests e
  generalize s.ingest e = out at hingests hv hw
  cases hingests with
  | init => cases hw
  | listed o named =>
    by_cases hkey : key' = named
    · rw [Option.getD_some, hkey, OrdMap.get?_insert_self, Option.some.injEq] at hw
      exact Nat.ne_of_lt (hw ▸ hfed.stamp_lt hfed.objects hv)
    · rw [Option.getD_some, OrdMap.get?_insert_of_ne _ _ hkey] at hw
      exact h key key' v w hv hw
  | done => cases hw
  | stored o named =>
    by_cases hkey : key = named
    · rw [get?, hkey, OrdMap.get?_insert_self, Option.some.injEq] at hv
      exact Nat.ne_of_gt (hv ▸ hfed.stamp_lt hfed.listed hw)
    · rw [get?, OrdMap.get?_insert_of_ne _ _ hkey] at hv
      exact h key key' v w hv hw
  | removed o named =>
    by_cases hkey : key = named
    · rw [get?, hkey, OrdMap.get?_erase_self] at hv
      cases hv
    · rw [get?, OrdMap.get?_erase_of_ne _ hkey] at hv
      exact h key key' v w hv hw
  | passed => exact h key key' v w hv hw

/-- Whether a store is as events leave it: what is stored or listed was fed to
it, and nothing is both. -/
structure Sound (s : Store α) : Prop where
  fed : ∃ arrived, s.FedBy arrived
  apart : s.Apart

theorem Sound.ingest (h : s.Sound) (e : WatchEvent α) : (s.ingest e).1.Sound := by
  obtain ⟨arrived, hfed⟩ := h.fed
  have hbrings : e.Brings fun _ => True := by cases e <;> trivial
  obtain ⟨more, hfed', -⟩ := hfed.ingest (fun _ _ => trivial) hbrings
  exact ⟨⟨arrived ++ more, hfed'⟩, h.apart.ingest hfed e⟩

theorem Sound.ingestAll (h : s.Sound) (events : List (WatchEvent α)) :
    (s.ingestAll events).1.Sound := by
  induction events generalizing s with
  | nil => exact h
  | cons e rest ih => exact ih (h.ingest e)

theorem sound_ingestAll (events : List (WatchEvent α)) : (empty.ingestAll events).1.Sound :=
  Sound.ingestAll ⟨⟨[], fedBy_empty⟩, apart_empty⟩ events

theorem Sound.stamp_lt (h : s.Sound) {v : Stored α} (hv : s.get? key = some v) :
    v.stamp < s.next := by
  obtain ⟨arrived, hfed⟩ := h.fed
  exact hfed.stamp_lt hfed.objects hv

/-! ### What is reported -/

theorem nodup_completeListing (s : Store α) : s.completeListing.2.Nodup := by
  dsimp only [completeListing]
  refine List.nodup_append.2 ⟨OrdMap.nodup_keys _, (OrdMap.nodup_keys _).filter _, ?_⟩
  rintro key hnews _ hgone rfl
  obtain ⟨v, hv⟩ := Option.isSome_iff_exists.1 (OrdMap.mem_keys.1 hnews)
  have hlisted := (OrdMap.get?_filter_eq_some_iff.1 hv).1
  have hnot := (List.mem_filter.1 hgone).2
  rw [OrdMap.contains, hlisted] at hnot
  cases hnot

theorem nodup_ingest (s : Store α) (e : WatchEvent α) : (s.ingest e).2.Nodup := by
  have hingests := s.ingests e
  generalize s.ingest e = out at hingests
  cases hingests with
  | init | listed | passed => exact .nil
  | done => exact nodup_completeListing s
  | stored o named | removed o named => exact List.pairwise_singleton _ named

/-- Whether what is stored under a key differs between two stores: another
arrival, or one in only one of them. -/
def Differs (s s' : Store α) (key : ObjectKey) : Prop :=
  (s.get? key).map (·.stamp) ≠ (s'.get? key).map (·.stamp)

theorem differs_completeListing (h : s.Apart) (hkey : key ∈ s.completeListing.2) :
    s.Differs s.completeListing.1 key := by
  dsimp only [Differs, completeListing, get?] at hkey ⊢
  rw [OrdMap.get?_map]
  rcases List.mem_append.1 hkey with hnews | hgone
  · obtain ⟨v, hv⟩ := Option.isSome_iff_exists.1 (OrdMap.mem_keys.1 hnews)
    obtain ⟨hlisted, hnew⟩ := OrdMap.get?_filter_eq_some_iff.1 hv
    have hsettle : s.settle key v = v := by
      rcases settle_cases s key v with ⟨-, hsettle⟩ | ⟨hold, -⟩
      · exact hsettle
      · rw [hnew] at hold
        cases hold
    rw [hlisted, Option.map_some, hsettle]
    intro hsame
    obtain ⟨known, hknown, hstamp⟩ := Option.map_eq_some_iff.1 hsame
    exact h key key known v hknown hlisted hstamp
  · obtain ⟨hknown, hnot⟩ := List.mem_filter.1 hgone
    obtain ⟨known, hknown⟩ := Option.isSome_iff_exists.1 (OrdMap.mem_keys.1 hknown)
    have hlisted : (s.listing.getD ∅).get? key = none := by
      simpa [OrdMap.contains] using hnot
    rw [hknown, hlisted]
    intro hsame
    cases hsame

/-- An event reports just the keys under which it makes a difference. -/
theorem mem_ingest_iff (h : s.Sound) (e : WatchEvent α) (key : ObjectKey) :
    key ∈ (s.ingest e).2 ↔ s.Differs (s.ingest e).1 key := by
  refine ⟨fun hkey => ?_, fun hdiffers => ?_⟩
  · have hingests := s.ingests e
    generalize s.ingest e = out at hingests hkey ⊢
    cases hingests with
    | init | listed | passed => cases hkey
    | done => exact differs_completeListing h.apart hkey
    | stored o named =>
      obtain rfl := List.mem_singleton.1 hkey
      dsimp only [Differs, get?]
      rw [OrdMap.get?_insert_self]
      intro hsame
      obtain ⟨known, hknown, hstamp⟩ := Option.map_eq_some_iff.1 hsame
      exact Nat.ne_of_lt (h.stamp_lt hknown) hstamp
    | removed o named _ hthere =>
      obtain rfl := List.mem_singleton.1 hkey
      obtain ⟨known, hknown⟩ := Option.isSome_iff_exists.1 hthere
      dsimp only [Differs, get?]
      rw [OrdMap.get?_erase_self, hknown]
      intro hsame
      cases hsame
  · by_contra hkey
    exact hdiffers (by rw [get?_ingest_of_not_mem hkey])

/-! ### What a listing gives -/

end Store

/-- Whether an event ends or restarts a listing, or lists an object under a
key. -/
def WatchEvent.overrides (key : ObjectKey) : WatchEvent α → Bool
  | .init | .initDone => true
  | .initApply o => o.metadata.key? == some key
  | .apply _ | .delete _ => false

namespace Store

variable {arrived : List (Kube.Object α)} {s : Store α} {e : WatchEvent α} {key : ObjectKey}
  {events : List (WatchEvent α)} {v : Stored α}

theorem ingestAll_concat (s : Store α) (events : List (WatchEvent α)) (e : WatchEvent α) :
    (s.ingestAll (events ++ [e])).1 = ((s.ingestAll events).1.ingest e).1 := by
  induction events generalizing s with
  | nil => rfl
  | cons first rest ih => exact ih (s.ingest first).1

/-- Whether an arrival is the last one that was listed for a key since a listing
was last started or ended. -/
def GivenLast (events : List (WatchEvent α)) (key : ObjectKey) (v : Stored α) : Prop :=
  ∃ before o after, events = before ++ .initApply o :: after ∧ o.metadata.key? = some key ∧
    (∀ e ∈ after, e.overrides key = false) ∧ v = ⟨(empty.ingestAll before).1.next, o⟩

theorem givenLast_concat : GivenLast (events ++ [e]) key v ↔
    (∃ o, e = .initApply o ∧ o.metadata.key? = some key ∧
      v = ⟨(empty.ingestAll events).1.next, o⟩) ∨
    e.overrides key = false ∧ GivenLast events key v := by
  constructor
  · rintro ⟨before, o, after, hevents, hkey, hafter, hv⟩
    rcases List.eq_nil_or_concat after with rfl | ⟨after, last, rfl⟩
    · obtain ⟨rfl, he⟩ := List.append_inj' hevents rfl
      exact .inl ⟨o, (List.cons.inj he).1, hkey, hv⟩
    · rw [List.concat_eq_append, ← List.cons_append, ← List.append_assoc] at hevents
      obtain ⟨rfl, he⟩ := List.append_inj' hevents rfl
      obtain rfl := (List.cons.inj he).1
      refine .inr ⟨hafter _ (by simp), before, o, after, rfl, hkey, fun e he => ?_, hv⟩
      exact hafter e (by simp [he])
  · rintro (⟨o, rfl, hkey, hv⟩ | ⟨he, before, o, after, rfl, hkey, hafter, hv⟩)
    · exact ⟨events, o, [], rfl, hkey, nofun, hv⟩
    · refine ⟨before, o, after ++ [e], by simp, hkey, fun e' he' => ?_, hv⟩
      rcases List.mem_append.1 he' with he' | he'
      · exact hafter e' he'
      · rwa [List.mem_singleton.1 he']

/-- What is listed for a key after an event is what the event lists, or what was
listed before it. -/
theorem get?_listing_ingest (s : Store α) (e : WatchEvent α) (key : ObjectKey) (v : Stored α) :
    ((s.ingest e).1.listing.getD ∅).get? key = some v ↔
      (∃ o, e = .initApply o ∧ o.metadata.key? = some key ∧ v = ⟨s.next, o⟩) ∨
        e.overrides key = false ∧ (s.listing.getD ∅).get? key = some v := by
  have hempty : (∅ : OrdMap ObjectKey (Stored α)).get? key = none := rfl
  cases e with
  | init => simp [ingest, WatchEvent.overrides, hempty]
  | initApply o =>
    cases hkey : o.metadata.key? with
    | none => simp [ingest, WatchEvent.overrides, hkey]
    | some named =>
      rw [ingest, hkey]
      dsimp only [Option.getD_some]
      by_cases hsame : key = named
      · subst hsame
        rw [OrdMap.get?_insert_self]
        simp [WatchEvent.overrides, hkey, eq_comm]
      · rw [OrdMap.get?_insert_of_ne _ _ hsame]
        simp [WatchEvent.overrides, hkey, Ne.symm hsame]
  | initDone => simp [ingest, completeListing, WatchEvent.overrides, hempty]
  | apply o =>
    suffices (s.ingest (.apply o)).1.listing = s.listing by
      simp [this, WatchEvent.overrides]
    rw [ingest]
    split
    · rfl
    · split <;> rfl
  | delete o =>
    suffices (s.ingest (.delete o)).1.listing = s.listing by
      simp [this, WatchEvent.overrides]
    rw [ingest]
    split
    · rfl
    · split <;> rfl

/-- The listing under way holds for each key what was listed last. -/
theorem get?_listing_iff (events : List (WatchEvent α)) (key : ObjectKey) (v : Stored α) :
    ((empty.ingestAll events).1.listing.getD ∅).get? key = some v ↔ GivenLast events key v := by
  induction events using List.reverseRecOn with
  | nil =>
    refine ⟨nofun, ?_⟩
    rintro ⟨before, o, after, hevents, -⟩
    simp at hevents
  | append_singleton events e ih =>
    rw [givenLast_concat, ingestAll_concat, get?_listing_ingest, ih]

theorem settle_eq_iff {given : Stored α} : s.settle key given = v ↔
    s.get? key = some v ∧ sameVersion v given = true ∨
      (∀ known, s.get? key = some known → sameVersion known given = false) ∧ given = v := by
  rw [settle, get?]
  cases s.objects.get? key with
  | none => simp
  | some known => cases hsame : sameVersion known given <;> grind

/-- When a listing ends, what is stored for a key is what was listed last for
it, or the object that is known in that version. -/
theorem get?_completeListing_iff : s.completeListing.1.get? key = some v ↔
    ∃ given, (s.listing.getD ∅).get? key = some given ∧
      (s.get? key = some v ∧ sameVersion v given = true ∨
        (∀ known, s.get? key = some known → sameVersion known given = false) ∧ given = v) := by
  simp only [← settle_eq_iff]
  dsimp only [completeListing, get?]
  rw [OrdMap.get?_map, Option.map_eq_some_iff]

/-- After any events, a further event reports the keys, each once, of just the
objects that it makes another arrival, stores or removes; these are the keys for
which a tracker that is up to date sees a change. The start of a listing and a
listed object show nowhere. At its end the store holds what was listed last for
each key, unless it held that version already, and nothing else. Once a listing
has ended the store stays ready. -/
theorem ingest_reports_changes (events : List (WatchEvent α)) (e : WatchEvent α) :
    let s := (empty.ingestAll events).1
    let s' := (s.ingest e).1
    let reported := (s.ingest e).2
    reported.Nodup ∧
    (∀ key, key ∈ reported ↔ s.Differs s' key) ∧
    (∀ key, key ∉ reported → s'.get? key = s.get? key) ∧
    (∀ key, ∀ t : Tracker ObjectKey (Stored α), t.processed.get? key = s.get? key →
      (key ∈ reported ↔ (t.check key (s'.get? key)).isSome = true)) ∧
    ((e = .init ∨ ∃ o, e = .initApply o) →
      s'.objects = s.objects ∧ s'.ready = s.ready ∧ reported = []) ∧
    (e = .initDone → s'.ready = true ∧ ∀ key v, s'.get? key = some v ↔
      ∃ given, GivenLast events key given ∧
        (s.get? key = some v ∧ sameVersion v given = true ∨
          (∀ known, s.get? key = some known → sameVersion known given = false) ∧ given = v)) ∧
    (s.ready = true → s'.ready = true) := by
  intro s s' reported
  have hreported (key : ObjectKey) : key ∈ reported ↔ s.Differs s' key :=
    mem_ingest_iff (sound_ingestAll events) e key
  refine ⟨nodup_ingest s e, hreported, fun _ => get?_ingest_of_not_mem, fun key t ht => ?_, ?_, ?_,
    fun hready => ready_ingest hready e⟩
  · rw [hreported, Tracker.isSome_check, ht, Differs]
  · rintro (rfl | ⟨o, rfl⟩)
    · exact ⟨rfl, rfl, rfl⟩
    · dsimp only [s', reported, ingest]
      split <;> exact ⟨rfl, rfl, rfl⟩
  · rintro rfl
    refine ⟨rfl, fun key v => ?_⟩
    simp only [← get?_listing_iff]
    exact get?_completeListing_iff

/-- A second listing that has one object in the known version, lacks another and
brings a third: the last two are reported, and a tracker that knew the one that
is gone sees it. -/
theorem ingest_reports_changes_of_relisted :
    let named (name : String) : Kube.Object Unit :=
      ⟨⟨some name, none, ∅, some "1", none, false⟩, ()⟩
    let events := listingOf [named "a", named "b"] ++
      [.init, .initApply (named "a"), .initApply (named "c")]
    let s := (empty.ingestAll events).1
    let s' := (s.ingest .initDone).1
    (s.ingest .initDone).2 = [⟨"", "c"⟩, ⟨"", "b"⟩] ∧ s'.get? ⟨"", "a"⟩ = s.get? ⟨"", "a"⟩ ∧
      ∀ t : Tracker ObjectKey (Stored Unit), t.processed.get? ⟨"", "b"⟩ = s.get? ⟨"", "b"⟩ →
        (t.check ⟨"", "b"⟩ (s'.get? ⟨"", "b"⟩)).isSome = true := by
  intro named events s s'
  have hreported : (s.ingest .initDone).2 = [⟨"", "c"⟩, ⟨"", "b"⟩] := by decide
  obtain ⟨-, -, hkept, hseen, -⟩ := ingest_reports_changes events .initDone
  refine ⟨hreported, hkept _ ?_, fun t ht => (hseen ⟨"", "b"⟩ t ht).1 ?_⟩
  · change (⟨"", "a"⟩ : ObjectKey) ∉ (s.ingest .initDone).2
    rw [hreported]
    decide
  · change (⟨"", "b"⟩ : ObjectKey) ∈ (s.ingest .initDone).2
    rw [hreported]
    decide

/-! ### What is gone -/

theorem next_le_ingest (s : Store α) (e : WatchEvent α) : s.next ≤ (s.ingest e).1.next := by
  have hingests := s.ingests e
  generalize s.ingest e = out at hingests
  cases hingests with
  | init | done | removed | passed => exact Nat.le_refl _
  | listed | stored => exact Nat.le_succ _

/-- What is stored after an event was stored or listed for its key before, or
arrived with the event. -/
theorem get?_ingest_eq_some (h : (s.ingest e).1.get? key = some v) :
    s.get? key = some v ∨ (s.listing.getD ∅).get? key = some v ∨ v.stamp = s.next := by
  have hingests := s.ingests e
  generalize s.ingest e = out at hingests h
  cases hingests with
  | init | listed | passed => exact .inl h
  | done =>
    obtain ⟨given, hgiven, ⟨hknown, -⟩ | ⟨-, rfl⟩⟩ := get?_completeListing_iff.1 h
    · exact .inl hknown
    · exact .inr (.inl hgiven)
  | stored o named =>
    by_cases hkey : key = named
    · rw [get?, hkey, OrdMap.get?_insert_self, Option.some.injEq] at h
      exact .inr (.inr (by rw [← h]))
    · rw [get?, OrdMap.get?_insert_of_ne _ _ hkey] at h
      exact .inl h
  | removed o named =>
    by_cases hkey : key = named
    · rw [get?, hkey, OrdMap.get?_erase_self] at h
      cases h
    · rw [get?, OrdMap.get?_erase_of_ne _ hkey] at h
      exact .inl h

/-- Whether an arrival is over and done with for a key: it is neither stored nor
listed there, nor yet to come. -/
structure Past (s : Store α) (key : ObjectKey) (v : Stored α) : Prop where
  arrived : v.stamp < s.next
  stored : s.get? key ≠ some v
  listed : (s.listing.getD ∅).get? key ≠ some v

theorem Past.ingest (h : s.Past key v) (e : WatchEvent α) : (s.ingest e).1.Past key v := by
  refine ⟨Nat.lt_of_lt_of_le h.arrived (next_le_ingest s e), fun hv => ?_, fun hv => ?_⟩
  · rcases get?_ingest_eq_some hv with hv | hv | hv
    · exact h.stored hv
    · exact h.listed hv
    · exact Nat.ne_of_lt h.arrived hv
  · rcases (get?_listing_ingest s e key v).1 hv with ⟨o, -, -, rfl⟩ | ⟨-, hv⟩
    · exact Nat.lt_irrefl _ h.arrived
    · exact h.listed hv

/-- An arrival that is stored is past once an event puts it out of its place. -/
theorem Sound.past_ingest (h : s.Sound) (hv : s.get? key = some v)
    (hgone : (s.ingest e).1.get? key ≠ some v) : (s.ingest e).1.Past key v := by
  have hlt := h.stamp_lt hv
  refine ⟨Nat.lt_of_lt_of_le hlt (next_le_ingest s e), hgone, fun hlisted => ?_⟩
  rcases (get?_listing_ingest s e key v).1 hlisted with ⟨o, -, -, rfl⟩ | ⟨-, hlisted⟩
  · exact Nat.lt_irrefl _ hlt
  · exact h.apart key key v v hv hlisted rfl

theorem Past.ingestAll (h : s.Past key v) (events : List (WatchEvent α)) :
    (s.ingestAll events).1.Past key v := by
  induction events generalizing s with
  | nil => exact h
  | cons e rest ih => exact ih (h.ingest e)

theorem Sound.past_ingestAll (h : s.Sound) (hv : s.get? key = some v)
    (events : List (WatchEvent α)) :
    (s.ingestAll events).1.get? key = some v ∨ (s.ingestAll events).1.Past key v := by
  induction events generalizing s with
  | nil => exact .inl hv
  | cons e rest ih =>
    by_cases hkept : (s.ingest e).1.get? key = some v
    · exact ih (h.ingest e) hkept
    · exact .inr ((h.past_ingest hv hkept).ingestAll rest)

/-- An object that left its place in a store never comes back to it: whatever
is stored there now and later on was there all the time between. -/
theorem Sound.get?_between (h : s.Sound) {events more : List (WatchEvent α)}
    (hv : s.get? key = some v)
    (hlast : ((s.ingestAll events).1.ingestAll more).1.get? key = some v) :
    (s.ingestAll events).1.get? key = some v := by
  rcases h.past_ingestAll hv events with hkept | hpast
  · exact hkept
  · exact absurd hlast (hpast.ingestAll more).stored

end Store

end PodFirewall
