import PodFirewall.Proofs.Policy.Records

/-!
The names of records. All records of a policy are entries with one header, so
they share the policy and the subject. A name is made of the prefix of its
policy and the place in it, and tells both. As long as the names of policies do
not contain the mark that ends a prefix, the prefix of a name alone tells the
policy.
-/

namespace PodFirewall

namespace Dialect

theorem length_name (d : Dialect) : d.name.toList.length = 3 := by cases d <;> rfl

theorem name_inj {d d' : Dialect} (h : d.name.toList = d'.name.toList) : d = d' := by
  cases d <;> cases d' <;> first | rfl | exact absurd h (by decide)

theorem mark_not_mem_name (d : Dialect) : '#' ∉ d.name.toList := by cases d <;> decide

theorem name_append_inj {d d' : Dialect} {l l' : List Char} :
    d.name.toList ++ ':' :: l = d'.name.toList ++ ':' :: l' ↔ d = d' ∧ l = l' := by
  constructor
  · intro h
    obtain ⟨hname, hrest⟩ := List.append_inj h ((length_name d).trans (length_name d').symm)
    exact ⟨name_inj hname, (List.cons.inj hrest).2⟩
  · rintro ⟨rfl, rfl⟩
    rfl

end Dialect

namespace Record

theorem toList_parentPrefix (dialect : Dialect) (parent : String) :
    (parentPrefix dialect parent).toList =
      (dialect.name.toList ++ ':' :: parent.toList) ++ ['#'] := by
  simp [parentPrefix]

theorem toList_nameAt (dialect : Dialect) (parent : String) (d : Direction) (rule number : Nat) :
    (nameAt dialect parent d rule number).toList =
      (dialect.name.toList ++ ':' :: parent.toList) ++
        '#' :: ((Nat.toDigits 10 rule ++ [d.letter]) ++ 'p' :: Nat.toDigits 10 number) := by
  simp [nameAt, toList_parentPrefix]

/-- A text that ends with the only mark in it starts a text exactly if it ends
at the first mark there. -/
theorem isPrefixOf_mark_iff {l m rest : List Char} (hl : '#' ∉ l) (hm : '#' ∉ m) :
    (l ++ ['#']).isPrefixOf (m ++ '#' :: rest) = true ↔ l = m := by
  have htake {l : List Char} (h : '#' ∉ l) (rest : List Char) :
      (l ++ '#' :: rest).takeWhile (· != '#') = l := by
    rw [List.takeWhile_append_of_pos fun c hc => by simpa using ne_of_mem_of_not_mem hc h]
    simp
  rw [List.isPrefixOf_iff_prefix]
  constructor
  · rintro ⟨rest', heq⟩
    rw [List.append_assoc, List.singleton_append] at heq
    rw [← htake hl rest', heq, htake hm]
  · rintro rfl
    exact ⟨rest, by simp⟩

/-- Names of records tell the policies they are part of. -/
theorem belongsTo_nameAt {dialect dialect' : Dialect} {parent parent' : String}
    (h : '#' ∉ parent.toList) (h' : '#' ∉ parent'.toList) (d : Direction) (rule peer : Nat) :
    belongsTo dialect parent (nameAt dialect' parent' d rule peer) = true ↔
      dialect = dialect' ∧ parent = parent' := by
  have hfree {dialect : Dialect} {parent : String} (h : '#' ∉ parent.toList) :
      '#' ∉ dialect.name.toList ++ ':' :: parent.toList := by
    have hmark := dialect.mark_not_mem_name
    simp [hmark, h]
  rw [belongsTo, toList_nameAt, toList_parentPrefix, isPrefixOf_mark_iff (hfree h) (hfree h'),
    Dialect.name_append_inj, String.toList_inj]

def NamedOf (dialect : Dialect) (parent : String) (name : String) : Prop :=
  ∃ d rule number, name = nameAt dialect parent d rule number

theorem NamedOf.belongsTo {dialect : Dialect} {parent name : String}
    (h : NamedOf dialect parent name) : Record.belongsTo dialect parent name = true := by
  obtain ⟨d, rule, number, rfl⟩ := h
  rw [Record.belongsTo, List.isPrefixOf_iff_prefix, nameAt]
  simp

/-- If the names of policies are without marks, the prefix of a name tells its
policy. -/
theorem NamedOf.of_belongsTo {dialect dialect' : Dialect} {parent parent' name : String}
    (h : NamedOf dialect' parent' name) (hfree' : '#' ∉ parent'.toList)
    (hfree : '#' ∉ parent.toList) (hbelongs : Record.belongsTo dialect parent name = true) :
    NamedOf dialect parent name := by
  obtain ⟨d, rule, number, rfl⟩ := h
  obtain ⟨rfl, rfl⟩ := (belongsTo_nameAt hfree hfree' d rule number).1 hbelongs
  exact ⟨d, rule, number, rfl⟩

/-- Whether a record has the name of a place in its policy, and the name of the
policy is without a mark. -/
def WellNamed (r : Record) : Prop :=
  '#' ∉ r.parent.name.toList ∧
    ∃ rule number, r.name = nameAt r.parent.dialect r.parent.name r.direction rule number

theorem WellNamed.belongsTo_iff {r : Record} (hr : r.WellNamed) {dialect : Dialect}
    {parent : String} (h : '#' ∉ parent.toList) :
    belongsTo dialect parent r.name = true ↔
      r.parent.dialect = dialect ∧ r.parent.name = parent := by
  obtain ⟨hfree, rule, number, hname⟩ := hr
  rw [hname, belongsTo_nameAt h hfree]
  exact ⟨fun ⟨hd, hp⟩ => ⟨hd.symm, hp.symm⟩, fun ⟨hd, hp⟩ => ⟨hd.symm, hp.symm⟩⟩

/-! ### Reading a name from its end -/

/-- A text is split in one way only at the last place where a mark stands. -/
theorem eq_of_last_mark {α : Type} {mark : α} {l l' rest rest' : List α}
    (h : l ++ mark :: rest = l' ++ mark :: rest') (hrest : mark ∉ rest) (hrest' : mark ∉ rest') :
    l = l' ∧ rest = rest' := by
  have hempty {as rest rest' : List α} (h : mark :: rest = as ++ mark :: rest')
      (hrest : mark ∉ rest) : as = [] := by
    cases as with
    | nil => rfl
    | cons a as =>
      rw [List.cons_append, List.cons.injEq] at h
      exact absurd (by simp [h.2]) hrest
  rcases List.append_eq_append_iff.1 h with ⟨as, rfl, htail⟩ | ⟨as, rfl, htail⟩
  · obtain rfl := hempty htail hrest
    simpa using htail
  · obtain rfl := hempty htail hrest'
    simpa using htail.symm

theorem digits_inj {m n : Nat} (h : Nat.toDigits 10 m = Nat.toDigits 10 n) : m = n := by
  rw [← Nat.ofDigitChars_ten_toDigits (n := m), h, Nat.ofDigitChars_ten_toDigits]

theorem not_mem_digits {c : Char} (hc : c.isDigit = false) (n : Nat) : c ∉ Nat.toDigits 10 n := by
  intro hmem
  rw [Nat.isDigit_of_mem_toDigits (by decide) (by decide) hmem] at hc
  cases hc

theorem mark_not_mem_place (d : Direction) (rule number : Nat) :
    '#' ∉ (Nat.toDigits 10 rule ++ [d.letter]) ++ 'p' :: Nat.toDigits 10 number := by
  have hletter : '#' ≠ d.letter := by cases d <;> decide
  simp [hletter, not_mem_digits (show '#'.isDigit = false from rfl)]

/-- Names tell the policies and the places in them, also if marks stand in the
names of policies. -/
theorem nameAt_inj {dialect dialect' : Dialect} {parent parent' : String} {d d' : Direction}
    {rule rule' number number' : Nat}
    (h : nameAt dialect parent d rule number = nameAt dialect' parent' d' rule' number') :
    dialect = dialect' ∧ parent = parent' ∧ d = d' ∧ rule = rule' ∧ number = number' := by
  have hlist := congrArg String.toList h
  rw [toList_nameAt, toList_nameAt] at hlist
  obtain ⟨hpolicy, hplace⟩ :=
    eq_of_last_mark hlist (mark_not_mem_place d rule number) (mark_not_mem_place d' rule' number')
  obtain ⟨hrule, hnumber⟩ :=
    eq_of_last_mark hplace (not_mem_digits (by decide) number) (not_mem_digits (by decide) number')
  obtain ⟨hdialect, hparent⟩ := Dialect.name_append_inj.1 hpolicy
  obtain ⟨hrule, hletter⟩ := List.append_inj' hrule rfl
  refine ⟨hdialect, String.toList_inj.1 hparent, ?_, digits_inj hrule, digits_inj hnumber⟩
  cases d <;> cases d' <;> first | rfl | exact absurd hletter (by decide)

/-! ### Finding the names of a policy -/

/-- What ends with a mark and starts a text goes no further than the last mark
there. -/
theorem prefix_last_mark_iff {α : Type} {mark : α} {l m rest : List α} (hrest : mark ∉ rest) :
    l ++ [mark] <+: m ++ mark :: rest ↔ l ++ [mark] <+: m ++ [mark] := by
  rw [List.append_cons m]
  constructor
  · intro h
    rcases List.prefix_or_prefix_of_prefix h (List.prefix_append (m ++ [mark]) rest) with
      hshort | ⟨as, has⟩
    · exact hshort
    · rw [← has, List.prefix_append_right_inj] at h
      rcases as.eq_nil_or_concat with rfl | ⟨as, c, rfl⟩
      · rw [List.append_nil] at has
        exact ⟨[], by rw [List.append_nil, has]⟩
      · -- What goes beyond the last mark there ends with a mark itself.
        rw [List.concat_eq_append, ← List.append_assoc] at has
        obtain ⟨-, hc⟩ := List.append_inj' has rfl
        exact absurd (h.subset (by simp [List.cons.inj hc])) hrest
  · intro h
    exact h.trans (List.prefix_append _ _)

/-- A name starts like those of a policy exactly if it is one of them, or is one
of a policy whose name goes on behind a mark. -/
theorem belongsTo_nameAt_iff (dialect dialect' : Dialect) (parent parent' : String)
    (d : Direction) (rule number : Nat) :
    belongsTo dialect parent (nameAt dialect' parent' d rule number) = true ↔
      dialect = dialect' ∧ (parent = parent' ∨ ∃ rest, parent' = parent ++ "#" ++ rest) := by
  have hbeyond : dialect.name.toList ++ ':' :: parent.toList ++ ['#'] <+:
        dialect'.name.toList ++ ':' :: parent'.toList ↔
      dialect = dialect' ∧ ∃ rest, parent' = parent ++ "#" ++ rest := by
    constructor
    · rintro ⟨rest, h⟩
      rw [List.append_assoc, List.append_assoc, List.cons_append, Dialect.name_append_inj] at h
      exact ⟨h.1, String.ofList rest, String.toList_inj.1 (by simp [← h.2])⟩
    · rintro ⟨rfl, rest, rfl⟩
      exact ⟨rest.toList, by simp⟩
  rw [belongsTo, toList_nameAt, toList_parentPrefix, List.isPrefixOf_iff_prefix,
    prefix_last_mark_iff (mark_not_mem_place d rule number), List.prefix_concat_iff, hbeyond,
    List.append_left_inj, Dialect.name_append_inj, String.toList_inj, ← and_or_left]

/-- The name of a record tells its policy and its place there. It is found by the
start of its policy, and by no other start unless a mark stands in the name of
the policy. -/
theorem nameAt_identifies :
    (∀ dialect dialect' parent parent' d d' rule rule' number number',
      nameAt dialect parent d rule number = nameAt dialect' parent' d' rule' number' ↔
        dialect = dialect' ∧ parent = parent' ∧ d = d' ∧ rule = rule' ∧ number = number') ∧
    (∀ dialect dialect' parent parent' d rule number,
      belongsTo dialect parent (nameAt dialect' parent' d rule number) = true ↔
        dialect = dialect' ∧ (parent = parent' ∨ ∃ rest, parent' = parent ++ "#" ++ rest)) ∧
    ∀ dialect dialect' parent parent' d rule number, '#' ∉ parent'.toList →
      (belongsTo dialect parent (nameAt dialect' parent' d rule number) = true ↔
        dialect = dialect' ∧ parent = parent') := by
  refine ⟨?_, belongsTo_nameAt_iff, ?_⟩
  · intro dialect dialect' parent parent' d d' rule rule' number number'
    constructor
    · exact nameAt_inj
    · rintro ⟨rfl, rfl, rfl, rfl, rfl⟩
      rfl
  · intro dialect dialect' parent parent' d rule number hfree
    rw [belongsTo_nameAt_iff, or_iff_left]
    rintro ⟨rest, rfl⟩
    simp at hfree

/-- The name of a policy can start that of another one. -/
theorem nameAt_identifies_of_longer :
    '#' ∉ "web-1".toList ∧ belongsTo .k8s "web" (nameAt .k8s "web-1" .incoming 10 2) = false ∧
      belongsTo .k8s "web-1" (nameAt .k8s "web-1" .incoming 10 2) = true := by
  have hfree : '#' ∉ "web-1".toList := by decide
  obtain ⟨-, -, hfound⟩ := nameAt_identifies
  refine ⟨hfree, Bool.eq_false_iff.2 fun hstart => ?_, ?_⟩
  · have hsame := (hfound .k8s .k8s "web" "web-1" .incoming 10 2 hfree).1 hstart
    exact absurd hsame.2 (by decide)
  · exact (hfound .k8s .k8s "web-1" "web-1" .incoming 10 2 hfree).2 ⟨rfl, rfl⟩

def Placed (r : Record) : Prop :=
  ∃ rule number, r.name = nameAt r.parent.dialect r.parent.name r.direction rule number

def PartOf (dialect : Dialect) (parent : String) (r : Record) : Prop :=
  r.parent.dialect = dialect ∧ r.parent.name = parent

namespace Placed

variable {r r' : Record}

theorem partOf_iff_of_name (hr : r.Placed) (hr' : r'.Placed) (hname : r.name = r'.name)
    {dialect : Dialect} {parent : String} : r.PartOf dialect parent ↔ r'.PartOf dialect parent := by
  obtain ⟨rule, number, h⟩ := hr
  obtain ⟨rule', number', h'⟩ := hr'
  obtain ⟨hdialect, hparent, -⟩ := nameAt_inj (h.symm.trans (hname.trans h'))
  rw [PartOf, PartOf, hdialect, hparent]

theorem direction_eq (hr : r.Placed) (hr' : r'.Placed) (hname : r.name = r'.name) :
    r.direction = r'.direction := by
  obtain ⟨rule, number, h⟩ := hr
  obtain ⟨rule', number', h'⟩ := hr'
  exact (nameAt_inj (h.symm.trans (hname.trans h'))).2.2.1

theorem belongsTo (hr : r.Placed) {dialect : Dialect} {parent : String}
    (h : r.PartOf dialect parent) : Record.belongsTo dialect parent r.name = true := by
  obtain ⟨rule, number, hname⟩ := hr
  obtain ⟨rfl, rfl⟩ := h
  exact NamedOf.belongsTo ⟨r.direction, rule, number, hname⟩

end Placed

/-! ### The records of a policy -/

def IsOf (h : Header) (r : Record) : Prop :=
  ∃ d rule number e, r = ofEntry h d rule number e

namespace IsOf

variable {h : Header} {r : Record}

theorem parent (hr : r.IsOf h) : r.parent = h.parent := by
  obtain ⟨d, rule, number, e, rfl⟩ := hr
  rfl

theorem subject (hr : r.IsOf h) : r.subject = h.subject := by
  obtain ⟨d, rule, number, e, rfl⟩ := hr
  rfl

theorem placed (hr : r.IsOf h) : r.Placed := by
  obtain ⟨d, rule, number, e, rfl⟩ := hr
  exact ⟨rule, number, rfl⟩

theorem wellNamed (hr : r.IsOf h) (hfree : '#' ∉ h.parent.name.toList) : r.WellNamed := by
  obtain ⟨d, rule, number, e, rfl⟩ := hr
  exact ⟨hfree, rule, number, rfl⟩

end IsOf

/-- Whether a list has entries with a header only, and the number of each is its
place in the list. -/
def Numbered (h : Header) (d : Direction) (rs : List Record) : Prop :=
  ∀ r ∈ rs, ∃ rule number e, r = ofEntry h d rule number e ∧ rs[number]? = some r

theorem numbered_nil (h : Header) (d : Direction) : Numbered h d [] := by simp [Numbered]

theorem numbered_singleton (h : Header) (d : Direction) (e : Entry) :
    Numbered h d [ofEntry h d 0 0 e] := by
  intro r hr
  rw [List.mem_singleton] at hr
  exact ⟨0, 0, e, hr, by rw [hr]; rfl⟩

theorem numbered_ofRules (h : Header) (d : Direction) (rules : List (List Entry)) :
    Numbered h d (ofRules h d rules) := by
  unfold ofRules
  dsimp only
  split
  · exact numbered_singleton h d nothing
  · intro r hr
    obtain ⟨e, he, rfl⟩ := List.mem_map.1 hr
    refine ⟨e.1.1, e.2, e.1.2, rfl, ?_⟩
    rw [List.getElem?_map, List.getElem?_zipIdx, List.mem_zipIdx_iff_getElem?.1 he]
    simp

/-- Whether records are those of both directions in turn, each with its
numbers. -/
def Listed (h : Header) (rs : List Record) : Prop :=
  ∃ lists : Direction → List Record,
    rs = Direction.all.flatMap lists ∧ ∀ d, Numbered h d (lists d)

namespace Listed

variable {h : Header} {rs : List Record} {r r' : Record}

theorem isOf (hrs : Listed h rs) (hr : r ∈ rs) : r.IsOf h := by
  obtain ⟨lists, rfl, hlists⟩ := hrs
  obtain ⟨d, -, hr⟩ := List.mem_flatMap.1 hr
  obtain ⟨rule, number, e, hr, -⟩ := hlists d r hr
  exact ⟨d, rule, number, e, hr⟩

/-- The records of a policy are told apart by their names. -/
theorem eq_of_name (hrs : Listed h rs) (hr : r ∈ rs) (hr' : r' ∈ rs) (hname : r.name = r'.name) :
    r = r' := by
  obtain ⟨lists, rfl, hlists⟩ := hrs
  obtain ⟨d, -, hr⟩ := List.mem_flatMap.1 hr
  obtain ⟨d', -, hr'⟩ := List.mem_flatMap.1 hr'
  obtain ⟨rule, number, e, rfl, hplace⟩ := hlists d r hr
  obtain ⟨rule', number', e', rfl, hplace'⟩ := hlists d' r' hr'
  obtain ⟨-, -, rfl, -, rfl⟩ := nameAt_inj hname
  exact Option.some.inj (hplace.symm.trans hplace')

/-- The records of a policy for one direction are told apart by their places. -/
theorem eq_of_priority (hrs : Listed h rs) (hr : r ∈ rs) (hr' : r' ∈ rs)
    (hdirection : r.direction = r'.direction) (hpriority : r.priority = r'.priority) : r = r' := by
  obtain ⟨lists, rfl, hlists⟩ := hrs
  obtain ⟨d, -, hr⟩ := List.mem_flatMap.1 hr
  obtain ⟨d', -, hr'⟩ := List.mem_flatMap.1 hr'
  obtain ⟨rule, number, e, rfl, hplace⟩ := hlists d r hr
  obtain ⟨rule', number', e', rfl, hplace'⟩ := hlists d' r' hr'
  obtain rfl : d = d' := hdirection
  obtain rfl : number = number' := Int.ofNat.inj hpriority
  exact Option.some.inj (hplace.symm.trans hplace')

end Listed

end Record

theorem NetworkPolicy.numbered_directionRecords (p : NetworkPolicy) (head : Record.Header)
    (d : Direction) : Record.Numbered head d (NetworkPolicy.directionRecords p head d) := by
  unfold NetworkPolicy.directionRecords
  split
  · exact Record.numbered_ofRules _ _ _
  · exact Record.numbered_nil head d

theorem NetworkPolicy.records_listed {p : NetworkPolicy} {rs : List Record}
    (h : NetworkPolicy.records p = .ok rs) :
    ∃ head, (Policy.k8s p).Heads head ∧ Record.Listed head rs := by
  obtain ⟨head, hhead, rfl⟩ := NetworkPolicy.records_ok h
  exact ⟨head, hhead, _, rfl, NetworkPolicy.numbered_directionRecords p head⟩

theorem PolycubePolicy.numbered_directionRecords (head : Record.Header) (ports : List PortMatch)
    (d : Direction) (rules : DirectionRules) :
    Record.Numbered head d (PolycubePolicy.directionRecords head ports d rules) := by
  unfold PolycubePolicy.directionRecords
  split
  · exact Record.numbered_singleton _ _ _
  · split
    · exact Record.numbered_singleton _ _ _
    · split
      · exact Record.numbered_nil head d
      · exact Record.numbered_ofRules _ _ _

theorem PolycubePolicy.records_listed {p : PolycubePolicy} {service : Option Service}
    {rs : List Record} (h : PolycubePolicy.records p service = .ok rs) :
    ∃ head, (Policy.pcn p).Heads head ∧ Record.Listed head rs := by
  obtain ⟨ns, found, -, hhead, rfl⟩ := PolycubePolicy.records_ok h
  exact ⟨_, hhead, _, rfl, fun d => numbered_directionRecords _ _ d _⟩

/-- The records of a policy are listed with one header, which is that of the
policy. -/
theorem Policy.records_listed {p : Policy} {service : Option Service} {rs : List Record}
    (h : p.records service = .ok rs) : ∃ head, p.Heads head ∧ Record.Listed head rs := by
  cases p with
  | k8s p => exact NetworkPolicy.records_listed h
  | pcn p => exact PolycubePolicy.records_listed h

theorem Policy.records_ok {p : Policy} {service : Option Service} {rs : List Record}
    (h : p.records service = .ok rs) : ∃ head, p.Heads head ∧ ∀ r ∈ rs, r.IsOf head := by
  obtain ⟨head, hhead, hlisted⟩ := records_listed h
  exact ⟨head, hhead, fun _ => hlisted.isOf⟩

end PodFirewall
