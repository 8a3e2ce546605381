import Mathlib.Data.Nat.Bitwise
import PodFirewall.Firewall.Fleet

/-!
What the name of a group's firewall tells. The text that is hashed is the
namespace and, behind a mark each, the labels. If the mark stands nowhere else
and no key holds the sign between key and value, the text can be taken apart
again, so it tells the group. The name is the hash written out, so two groups
have one firewall exactly if their texts have one hash.
-/

namespace PodFirewall

namespace Xxh3

/-- Digits tell the numbers they stand for. -/
theorem digitChar_inj {a b : Nat} (ha : a < 16) (hb : b < 16)
    (h : Nat.digitChar a = Nat.digitChar b) : a = b := by
  have hall : ∀ a < 16, ∀ b < 16, Nat.digitChar a = Nat.digitChar b → a = b := by decide
  exact hall a ha b hb h

theorem toNat_nibble (x : UInt64) {i : Nat} (hi : i < 16) :
    ((x >>> (4 * i).toUInt64) % 16).toNat = (x.toNat >>> (4 * i)) % 16 := by
  have hshift : (4 * i).toUInt64.toNat % 64 = 4 * i := by
    rw [Nat.toUInt64, UInt64.toNat_ofNat', Nat.mod_eq_of_lt (b := 2 ^ 64) (by omega)]
    exact Nat.mod_eq_of_lt (by omega)
  rw [UInt64.toNat_mod, UInt64.toNat_shiftRight, hshift]
  rfl

/-- A word is written in one way. -/
theorem hex16_inj {x y : UInt64} (h : hex16 x = hex16 y) : x = y := by
  have hdigits := List.map_inj_left.1 (String.ofList_injective h)
  have hnibble (i : Nat) (hi : i < 16) :
      (x.toNat >>> (4 * i)) % 2 ^ 4 = (y.toNat >>> (4 * i)) % 2 ^ 4 := by
    have hdigit := hdigits i (List.mem_reverse.2 (List.mem_range.2 hi))
    rw [toNat_nibble x hi, toNat_nibble y hi] at hdigit
    exact digitChar_inj (Nat.mod_lt _ (by decide)) (Nat.mod_lt _ (by decide)) hdigit
  refine UInt64.toNat_inj.1 (Nat.eq_of_testBit_eq fun j => ?_)
  by_cases hj : j < 64
  · have hbit := congrArg (Nat.testBit · (j % 4)) (hnibble (j / 4) (by omega))
    have hsmall : j % 4 < 4 := Nat.mod_lt j (by decide)
    have hplace : 4 * (j / 4) + j % 4 = j := Nat.div_add_mod j 4
    simpa only [Nat.testBit_mod_two_pow, Nat.testBit_shiftRight, hsmall, hplace, decide_true,
      Bool.true_and] using hbit
  · have hhigh (z : UInt64) : z.toNat.testBit j = false :=
      Nat.testBit_lt_two_pow (Nat.lt_of_lt_of_le z.toNat_lt
        (Nat.pow_le_pow_right (by decide) (Nat.le_of_not_lt hj)))
    rw [hhigh, hhigh]

end Xxh3

/-! ### Texts with marks -/

section Marks

variable {α : Type} {mark : α} {l l' : List α}

/-- A text is split in one way only at the first place where a mark stands. -/
theorem eq_of_first_mark {rest rest' : List α} (hl : mark ∉ l) (hl' : mark ∉ l')
    (h : l ++ mark :: rest = l' ++ mark :: rest') : l = l' ∧ rest = rest' := by
  rcases List.append_eq_append_iff.1 h with ⟨as, rfl, htail⟩ | ⟨as, rfl, htail⟩
  · cases as with
    | nil => simpa using htail
    | cons a as => simp_all
  · cases as with
    | nil => simpa using htail.symm
    | cons a as => simp_all

/-- Parts without marks, each behind a mark, are told by the text they make
up. -/
theorem eq_of_marked {parts parts' : List (List α)} (hl : mark ∉ l) (hl' : mark ∉ l')
    (hparts : ∀ p ∈ parts, mark ∉ p) (hparts' : ∀ p ∈ parts', mark ∉ p)
    (h : l ++ parts.flatMap (mark :: ·) = l' ++ parts'.flatMap (mark :: ·)) :
    l = l' ∧ parts = parts' := by
  induction parts generalizing l l' parts' with
  | nil =>
    cases parts' with
    | nil => simpa using h
    | cons p' rest' =>
      rw [List.flatMap_nil, List.append_nil] at h
      exact absurd (by simp [h]) hl
  | cons p rest ih =>
    cases parts' with
    | nil =>
      rw [List.flatMap_nil, List.append_nil] at h
      exact absurd (by simp [← h]) hl'
    | cons p' rest' =>
      rw [List.forall_mem_cons] at hparts hparts'
      rw [List.flatMap_cons, List.flatMap_cons, List.cons_append, List.cons_append] at h
      obtain ⟨rfl, htail⟩ := eq_of_first_mark hl hl' h
      obtain ⟨rfl, rfl⟩ := ih hparts.1 hparts'.1 hparts.2 hparts'.2 htail
      exact ⟨rfl, rfl⟩

end Marks

namespace PodGroup

def labelText (e : String × String) : List Char := e.1.toList ++ '=' :: e.2.toList

theorem toList_identity (g : PodGroup) :
    g.identity.toList =
      g.namespaceName.toList ++ (g.labels.toList.map labelText).flatMap ('|' :: ·) := by
  have hfold (l : List (String × String)) (s : String) :
      (l.foldl (fun s e => s ++ "|" ++ e.1 ++ "=" ++ e.2) s).toList =
        s.toList ++ (l.map labelText).flatMap ('|' :: ·) := by
    induction l generalizing s with
    | nil => simp
    | cons e rest ih => simp [ih, labelText]
  exact hfold _ _

/-- A key ends at the first sign. -/
theorem labelText_inj {e e' : String × String} (he : '=' ∉ e.1.toList) (he' : '=' ∉ e'.1.toList)
    (h : labelText e = labelText e') : e = e' := by
  obtain ⟨hkey, hvalue⟩ := eq_of_first_mark he he' h
  exact Prod.ext (String.toList_inj.1 hkey) (String.toList_inj.1 hvalue)

theorem map_labelText_inj {l l' : List (String × String)} (hl : ∀ e ∈ l, '=' ∉ e.1.toList)
    (hl' : ∀ e ∈ l', '=' ∉ e.1.toList) (h : l.map labelText = l'.map labelText) : l = l' := by
  induction l generalizing l' with
  | nil => exact (List.map_eq_nil_iff.1 h.symm).symm
  | cons e rest ih =>
    obtain ⟨e', rest', rfl, hfirst, hrest⟩ := List.map_eq_cons_iff.1 h.symm
    rw [List.forall_mem_cons] at hl hl'
    rw [labelText_inj hl.1 hl'.1 hfirst.symm, ih hl.2 hl'.2 hrest.symm]

/-- Whether the identity of a group can be taken apart: its marks stand nowhere
else, and no key holds the sign between key and value. The names and labels that
a cluster accepts are all of this kind. -/
structure Plain (g : PodGroup) : Prop where
  namespaceName : '|' ∉ g.namespaceName.toList
  keys : ∀ e ∈ g.labels.toList, '|' ∉ e.1.toList ∧ '=' ∉ e.1.toList
  values : ∀ e ∈ g.labels.toList, '|' ∉ e.2.toList

variable {g g' : PodGroup}

theorem Plain.mark_not_mem_labelText (hg : g.Plain) :
    ∀ p ∈ g.labels.toList.map labelText, '|' ∉ p := by
  intro p hp
  obtain ⟨e, he, rfl⟩ := List.mem_map.1 hp
  simp [labelText, hg.keys e he, hg.values e he]

theorem Plain.identity_inj (hg : g.Plain) (hg' : g'.Plain) (h : g.identity = g'.identity) :
    g = g' := by
  have hlist := congrArg String.toList h
  rw [toList_identity, toList_identity] at hlist
  obtain ⟨hspace, hlabels⟩ := eq_of_marked hg.namespaceName hg'.namespaceName
    hg.mark_not_mem_labelText hg'.mark_not_mem_labelText hlist
  have hentries := map_labelText_inj (fun e he => (hg.keys e he).2)
    (fun e he => (hg'.keys e he).2) hlabels
  obtain ⟨space, labels, hsorted⟩ := g
  obtain ⟨space', labels', hsorted'⟩ := g'
  obtain rfl : space = space' := String.toList_inj.1 hspace
  obtain rfl : labels = labels' := hentries
  rfl

theorem firewallName_eq_iff :
    g.firewallName = g'.firewallName ↔
      Xxh3.hash g.identity.toUTF8 = Xxh3.hash g'.identity.toUTF8 := by
  constructor
  · intro h
    have hlist := congrArg String.toList h
    rw [firewallName, firewallName, String.toList_append, String.toList_append,
      List.append_cancel_left_eq, String.toList_inj] at hlist
    exact Xxh3.hex16_inj hlist
  · intro h
    rw [firewallName, firewallName, h]

/-- The text that stands for a group tells its namespace and its labels. So two
groups have one firewall only if they are one group, or if the hash makes one
word of two different texts. -/
theorem told_by_identity (hg : g.Plain) (hg' : g'.Plain) :
    (g.identity = g'.identity ↔ g = g') ∧
      (g.firewallName = g'.firewallName ↔
        g = g' ∨ g.identity.toUTF8 ≠ g'.identity.toUTF8 ∧
          Xxh3.hash g.identity.toUTF8 = Xxh3.hash g'.identity.toUTF8) := by
  have htells : g.identity = g'.identity ↔ g = g' := ⟨hg.identity_inj hg', congrArg identity⟩
  have hbytes : g.identity.toUTF8 = g'.identity.toUTF8 ↔ g = g' :=
    String.toByteArray_inj.trans htells
  refine ⟨htells, ?_⟩
  rw [firewallName_eq_iff, Ne, hbytes]
  constructor
  · intro hhash
    by_cases hsame : g = g'
    · exact .inl hsame
    · exact .inr ⟨hsame, hhash⟩
  · rintro (rfl | ⟨-, hhash⟩)
    · rfl
    · exact hhash

/-- Labels whose values are empty or hold the sign between key and value. -/
theorem told_by_identity_of_signs :
    let g : PodGroup := ⟨"n", OrdMap.ofList [("a", "=b")]⟩
    let g' : PodGroup := ⟨"n", OrdMap.ofList [("a", ""), ("b", "")]⟩
    g.Plain ∧ g'.Plain ∧ g.identity = "n|a==b" ∧ g'.identity = "n|a=|b=" ∧ g ≠ g' ∧
      (g.firewallName = g'.firewallName ↔
        g = g' ∨ g.identity.toUTF8 ≠ g'.identity.toUTF8 ∧
          Xxh3.hash g.identity.toUTF8 = Xxh3.hash g'.identity.toUTF8) := by
  intro g g'
  have hg : g.Plain := ⟨by decide, by decide, by decide⟩
  have hg' : g'.Plain := ⟨by decide, by decide, by decide⟩
  obtain ⟨htells, hname⟩ := told_by_identity hg hg'
  exact ⟨hg, hg', by decide, by decide, mt htells.2 (by decide), hname⟩

end PodGroup

end PodFirewall
