import Mathlib.Data.List.TakeWhile

/-!
# Prefix forms

A prefix form is a word, a list in parentheses that begins with a word, or a word with a list of
words after it. It is written without any escapes, and still it can be read in one way only: a text
that begins with a form, before a space or a closing parenthesis, determines the form and the rest
of the text (`Form.chars_append_inj`).
-/

set_option autoImplicit false

namespace Lox

/-- A tree in prefix form. -/
inductive Form where
  | word (w : String)
  | list (head : String) (items : List Form)
  /-- A name with parameters. -/
  | applied (name : String) (params : List String)

namespace Form

mutual

/-- A form as it is written. -/
def chars : Form → List Char
  | .word w => w.toList
  | .list head items => '(' :: (head.toList ++ (charsAll items ++ [')']))
  | .applied name params => name.toList ++ '(' :: ((" ".intercalate params).toList ++ [')'])

/-- Forms as they are written, each after a space. -/
def charsAll : List Form → List Char
  | [] => []
  | f :: fs => ' ' :: (f.chars ++ charsAll fs)

end

/-- The characters that may be in words. -/
def isWordChar (c : Char) : Bool :=
  c != ' ' && c != '(' && c != ')'

/-- A word has characters, and none of them ends it. -/
def IsWord (w : String) : Prop :=
  w.toList ≠ [] ∧ ∀ c ∈ w.toList, isWordChar c = true

mutual

/-- All words of the form are words. -/
def Proper : Form → Prop
  | .word w => IsWord w
  | .list head items => IsWord head ∧ AllProper items
  | .applied name params => IsWord name ∧ ∀ p ∈ params, IsWord p

def AllProper : List Form → Prop
  | [] => True
  | f :: fs => f.Proper ∧ AllProper fs

end

/-- What may follow a form: a space, a closing parenthesis or nothing. -/
def Stops (cs : List Char) : Prop :=
  ∀ c ∈ cs.head?, c = ' ' ∨ c = ')'

/-! ## Words -/

section

variable {w v : String} {r s : List Char}

/-- A text determines the word at its head. -/
theorem word_append_inj (hw : IsWord w) (hv : IsWord v) (hr : ∀ c ∈ r.head?, isWordChar c = false)
    (hs : ∀ c ∈ s.head?, isWordChar c = false) (h : w.toList ++ r = v.toList ++ s) :
    w = v ∧ r = s := by
  have hspan {u : String} {t : List Char} (hu : IsWord u)
      (ht : ∀ c ∈ t.head?, isWordChar c = false) :
      (u.toList ++ t).takeWhile isWordChar = u.toList := by
    rw [List.takeWhile_append_of_pos hu.2]
    cases t with
    | nil => simp
    | cons c t => simp [ht c rfl]
  have hwords : w.toList = v.toList := by
    rw [← hspan hw hr, h, hspan hv hs]
  exact ⟨String.toList_inj.1 hwords, List.append_cancel_left (hwords ▸ h)⟩

theorem Stops.not_isWordChar (hr : Stops r) : ∀ c ∈ r.head?, isWordChar c = false := by
  intro c hc
  rcases hr c hc with rfl | rfl <;> rfl

theorem stops_paren (r : List Char) : Stops (')' :: r) := by
  simp [Stops]

theorem stops_charsAll (fs : List Form) (r : List Char) : Stops (charsAll fs ++ ')' :: r) := by
  cases fs with
  | nil => exact stops_paren r
  | cons f fs => simp [Stops, charsAll]

/-- The first character of a word. -/
theorem IsWord.exists_cons (hw : IsWord w) : ∃ c cs, w.toList = c :: cs ∧ isWordChar c = true := by
  obtain ⟨c, cs, hcs⟩ := List.exists_cons_of_ne_nil hw.1
  exact ⟨c, cs, hcs, hw.2 c (hcs ▸ List.mem_cons_self)⟩

/-- A text that begins with a word begins with none of these. -/
theorem IsWord.append_ne (hw : IsWord w) {c : Char} (hc : isWordChar c = false) :
    w.toList ++ r ≠ c :: s := by
  obtain ⟨d, cs, hcs, hd⟩ := hw.exists_cons
  rw [hcs]
  rintro h
  obtain ⟨rfl, -⟩ := List.cons.inj h
  rw [hd] at hc
  cases hc

end

/-! ## Lists of words -/

/-- Words after one another, with a space between any two. -/
theorem toList_intercalate (w : String) (ws : List String) :
    (" ".intercalate (w :: ws)).toList = w.toList ++ charsAll (ws.map .word) := by
  induction ws generalizing w with
  | nil => simp [charsAll]
  | cons v ws ih =>
    rw [String.intercalate_cons_cons, List.map_cons, charsAll, chars, ← ih v]
    simp

theorem words_append_inj {ws vs : List String} {r s : List Char} (hws : ∀ w ∈ ws, IsWord w)
    (hvs : ∀ v ∈ vs, IsWord v)
    (h : charsAll (ws.map .word) ++ ')' :: r = charsAll (vs.map .word) ++ ')' :: s) :
    ws = vs ∧ r = s := by
  induction ws generalizing vs with
  | nil =>
    cases vs with
    | nil => exact ⟨rfl, (List.cons.inj h).2⟩
    | cons v vs => exact absurd (List.cons.inj h).1 (by decide)
  | cons w ws ih =>
    cases vs with
    | nil => exact absurd (List.cons.inj h).1 (by decide)
    | cons v vs =>
      obtain ⟨hw, hws'⟩ := List.forall_mem_cons.1 hws
      obtain ⟨hv, hvs'⟩ := List.forall_mem_cons.1 hvs
      simp only [List.map_cons, charsAll, chars, List.cons_append, List.append_assoc,
        List.cons.injEq, true_and] at h
      obtain ⟨rfl, hrest⟩ := word_append_inj hw hv (stops_charsAll _ r).not_isWordChar
        (stops_charsAll _ s).not_isWordChar h
      obtain ⟨rfl, rfl⟩ := ih hws' hvs' hrest
      exact ⟨rfl, rfl⟩

theorem intercalate_append_inj {ws vs : List String} {r s : List Char} (hws : ∀ w ∈ ws, IsWord w)
    (hvs : ∀ v ∈ vs, IsWord v)
    (h : (" ".intercalate ws).toList ++ ')' :: r = (" ".intercalate vs).toList ++ ')' :: s) :
    ws = vs ∧ r = s := by
  cases ws with
  | nil =>
    cases vs with
    | nil => exact ⟨rfl, by simpa using h⟩
    | cons v vs =>
      rw [toList_intercalate, List.append_assoc] at h
      exact absurd h.symm ((hvs v List.mem_cons_self).append_ne rfl)
  | cons w ws =>
    cases vs with
    | nil =>
      rw [toList_intercalate, List.append_assoc] at h
      exact absurd h ((hws w List.mem_cons_self).append_ne rfl)
    | cons v vs =>
      obtain ⟨hw, hws'⟩ := List.forall_mem_cons.1 hws
      obtain ⟨hv, hvs'⟩ := List.forall_mem_cons.1 hvs
      rw [toList_intercalate, toList_intercalate, List.append_assoc, List.append_assoc] at h
      obtain ⟨rfl, hrest⟩ := word_append_inj hw hv (stops_charsAll _ r).not_isWordChar
        (stops_charsAll _ s).not_isWordChar h
      obtain ⟨rfl, rfl⟩ := words_append_inj hws' hvs' hrest
      exact ⟨rfl, rfl⟩

/-! ## Forms -/

mutual

/-- **A text determines the form at its head.** -/
theorem chars_append_inj : ∀ {f g : Form} {r s : List Char}, f.Proper → g.Proper → Stops r →
    Stops s → f.chars ++ r = g.chars ++ s → f = g ∧ r = s
  | .word w, g, r, s, hf, hg, hr, hs, h => by
    cases g with
    | word v =>
      obtain ⟨rfl, rfl⟩ := word_append_inj hf hg hr.not_isWordChar hs.not_isWordChar h
      exact ⟨rfl, rfl⟩
    | list head items => exact absurd h (IsWord.append_ne hf rfl)
    | applied name params =>
      rw [chars, chars, List.append_assoc] at h
      obtain ⟨-, rfl⟩ := word_append_inj hf hg.1 hr.not_isWordChar (by simp; rfl) h
      exact absurd (hr '(' rfl) (by decide)
  | .list head items, g, r, s, hf, hg, hr, hs, h => by
    cases g with
    | word v => exact absurd h.symm (IsWord.append_ne hg rfl)
    | list head' items' =>
      simp only [chars, List.cons_append, List.append_assoc, List.nil_append, List.cons.injEq,
        true_and] at h
      obtain ⟨rfl, hrest⟩ := word_append_inj hf.1 hg.1 (stops_charsAll _ r).not_isWordChar
        (stops_charsAll _ s).not_isWordChar h
      obtain ⟨rfl, rfl⟩ := charsAll_append_inj hf.2 hg.2 hrest
      exact ⟨rfl, rfl⟩
    | applied name params =>
      rw [chars, chars, List.append_assoc] at h
      exact absurd h.symm (hg.1.append_ne rfl)
  | .applied name params, g, r, s, hf, hg, hr, hs, h => by
    cases g with
    | word v =>
      rw [chars, chars, List.append_assoc] at h
      obtain ⟨-, rfl⟩ := word_append_inj hf.1 hg (by simp; rfl) hs.not_isWordChar h
      exact absurd (hs '(' rfl) (by decide)
    | list head items =>
      rw [chars, chars, List.append_assoc] at h
      exact absurd h (hf.1.append_ne rfl)
    | applied name' params' =>
      simp only [chars, List.cons_append, List.append_assoc, List.nil_append] at h
      obtain ⟨rfl, hrest⟩ := word_append_inj hf.1 hg.1 (by simp; rfl) (by simp; rfl) h
      obtain ⟨rfl, rfl⟩ := intercalate_append_inj hf.2 hg.2 (List.cons.inj hrest).2
      exact ⟨rfl, rfl⟩

theorem charsAll_append_inj : ∀ {fs gs : List Form} {r s : List Char}, AllProper fs → AllProper gs →
    charsAll fs ++ ')' :: r = charsAll gs ++ ')' :: s → fs = gs ∧ r = s
  | [], [], _, _, _, _, h => ⟨rfl, (List.cons.inj h).2⟩
  | [], _ :: _, _, _, _, _, h => absurd (List.cons.inj h).1 (by decide)
  | _ :: _, [], _, _, _, _, h => absurd (List.cons.inj h).1 (by decide)
  | f :: fs, g :: gs, r, s, hf, hg, h => by
    simp only [charsAll, List.cons_append, List.append_assoc, List.cons.injEq, true_and] at h
    obtain ⟨rfl, hrest⟩ := chars_append_inj hf.1 hg.1 (stops_charsAll fs r) (stops_charsAll gs s) h
    obtain ⟨rfl, rfl⟩ := charsAll_append_inj hf.2 hg.2 hrest
    exact ⟨rfl, rfl⟩

end

/-- Forms that are written in the same way are the same. -/
theorem eq_of_chars_eq {f g : Form} (hf : f.Proper) (hg : g.Proper) (h : f.chars = g.chars) :
    f = g := by
  have hstops : Stops [] := nofun
  exact (chars_append_inj (r := []) (s := []) hf hg hstops hstops (by rw [h])).1

end Form
end Lox
