import Mathlib.Tactic
import MatrixLisp.Proofs.Value.OrderedDictionary
import MatrixLisp.Proofs.Value.Renaming

/-!
# Equality is symmetric

Maps are compared from one side only: each entry of the first looks for its value in the second, and
both have equally many entries. With forms as keys, and no key twice, the texts of the keys of the
first are then all the texts of the second. So maps are equal if they have the same texts, with equal
values under each of them, and equality does not depend on the side.
-/
namespace MatrixLisp

open Reader (IsForm)

/-- A form that has the text of a key finds its value. -/
theorem Dict.Distinct.find?_of_render_eq {d : Dict} (h : d.Distinct)
    (hforms : ∀ e ∈ d, IsForm e.1) {e : Value × Value} (he : e ∈ d) {key : Value}
    (hkey : IsForm key) (htext : e.1.render = key.render) : d.find? key = some e.2 := by
  rw [← (hforms e he).render_injective hkey htext]
  exact h.find?_of_mem he (hforms e he).isKey_self

theorem Dict.mem_texts_of_find? {d : Dict} {key value : Value} (h : d.find? key = some value) :
    key.render ∈ d.texts := by
  obtain ⟨e, he, hkey, -⟩ := exists_mem_of_find? h
  rw [isKey, Bool.and_eq_true, beq_iff_eq] at hkey
  exact mem_texts.mpr ⟨e, he, hkey.2⟩

namespace Value

section

variable {d e : Dict} (hd : d.Distinct) (he : e.Distinct) (hdforms : ∀ x ∈ d, IsForm x.1)
  (heforms : ∀ y ∈ e, IsForm y.1)

include hd he hdforms heforms

/-- Two maps with forms as keys are equal if the same texts stand for keys in both, with equal values
under them. -/
theorem equal_map_iff_texts :
    (map d).equal (map e) = true ↔ (∀ text, text ∈ d.texts ↔ text ∈ e.texts) ∧
      ∀ x ∈ d, ∀ y ∈ e, x.1.render = y.1.render → y.2.equal x.2 = true := by
  have hdnodup := hd.nodup_texts hdforms
  have henodup := he.nodup_texts heforms
  have hlength : ∀ d : Dict, d.texts.length = d.length := fun d => List.length_map _
  rw [equal_map_iff]
  constructor
  · rintro ⟨hsize, hfound⟩
    constructor
    · -- All texts of the first map are in the second, which has no room for others.
      have hsubset : d.texts ⊆ e.texts := by
        intro text htext
        obtain ⟨x, hx, rfl⟩ := Dict.mem_texts.mp htext
        obtain ⟨v, hv, -⟩ := hfound x hx
        exact Dict.mem_texts_of_find? hv
      have hperm : d.texts.Perm e.texts := by
        apply (List.subperm_of_subset hdnodup hsubset).perm_of_length_le
        rw [hlength, hlength, hsize]
      exact fun text => hperm.mem_iff
    · intro x hx y hy htext
      obtain ⟨v, hv, hequal⟩ := hfound x hx
      rw [he.find?_of_render_eq heforms hy (hdforms x hx) htext.symm] at hv
      cases hv
      exact hequal
  · rintro ⟨htexts, hvalues⟩
    have hperm : d.texts.Perm e.texts := (List.perm_ext_iff_of_nodup hdnodup henodup).mpr htexts
    constructor
    · rw [← hlength, hperm.length_eq, hlength]
    · intro x hx
      obtain ⟨y, hy, htext⟩ := Dict.mem_texts.mp ((htexts _).mp (Dict.mem_texts.mpr ⟨x, hx, rfl⟩))
      exact ⟨y.2, he.find?_of_render_eq heforms hy (hdforms x hx) htext,
        hvalues x hx y hy htext.symm⟩

/-- Equality of maps does not depend on the side if that of their values does not. -/
theorem equal_map_comm (hvalues : ∀ x ∈ d, ∀ y ∈ e, x.2.equal y.2 = y.2.equal x.2) :
    (map d).equal (map e) = (map e).equal (map d) := by
  rw [Bool.eq_iff_iff, equal_map_iff_texts hd he hdforms heforms,
    equal_map_iff_texts he hd heforms hdforms]
  constructor
  · rintro ⟨htexts, hequal⟩
    refine ⟨fun text => (htexts text).symm, fun y hy x hx htext => ?_⟩
    rw [hvalues x hx y hy]
    exact hequal x hx y hy htext.symm
  · rintro ⟨htexts, hequal⟩
    refine ⟨fun text => (htexts text).symm, fun x hx y hy htext => ?_⟩
    rw [← hvalues x hx y hy]
    exact hequal y hy x hx htext.symm

end

theorem equalItems_comm {xs ys : List Value} (h : ∀ x ∈ xs, ∀ y ∈ ys, x.equal y = y.equal x) :
    equalItems xs ys = equalItems ys xs := by
  induction xs generalizing ys with
  | nil => cases ys <;> simp [equalItems]
  | cons x xs ih =>
    cases ys with
    | nil => simp [equalItems]
    | cons y ys =>
      have hrest : ∀ x ∈ xs, ∀ y ∈ ys, x.equal y = y.equal x :=
        fun x hx y hy => h x (by simp [hx]) y (by simp [hy])
      rw [equalItems, equalItems, h x (by simp) y (by simp), ih hrest]

/-- All keys of maps in a value are forms, and so are the parameters and bodies of closures. -/
inductive FormKeyed : Value → Prop
  | atom {v : Value} : v.IsAtom → FormKeyed v
  | list {items : List Value} : (∀ v ∈ items, FormKeyed v) → FormKeyed (.list items)
  | vector {items : List Value} : (∀ v ∈ items, FormKeyed v) → FormKeyed (.vector items)
  | map {entries : List (Value × Value)} : (∀ e ∈ entries, IsForm e.1) →
      (∀ e ∈ entries, FormKeyed e.2) → FormKeyed (.map entries)
  | closure {id : ℕ} {params : List Value} {body : Value} {scope : Scope} :
      (∀ p ∈ params, IsForm p) → IsForm body → FormKeyed (.closure id params body scope)

end Value

/-- The keys of the maps in a form are forms. -/
theorem Reader.IsForm.formKeyed {v : Value} (h : IsForm v) : v.FormKeyed := by
  induction v using Value.parts_induction with
  | atom v hv => exact .atom hv
  | list items ih => exact .list fun v hv => ih v hv (h.items rfl v hv)
  | vector items ih => exact .vector fun v hv => ih v hv (h.items rfl v hv)
  | map entries ih =>
    exact .map (fun e he => (h.entries e he).1) fun e he => (ih e he).2 (h.entries e he).2
  | closure id params body scope => exact absurd rfl (h.ne_closure id params body scope)

namespace Value

theorem equal_comm_of_isAtom {a : Value} (h : a.IsAtom) (b : Value) : a.equal b = b.equal a := by
  cases a with
  | symbol x => cases b <;> simp only [equal, BEq.comm]
  | number x => cases b <;> simp only [equal, Number.equal_comm]
  | bool x => cases b <;> simp only [equal, BEq.comm]
  | nil => cases b <;> simp only [equal]
  | builtin x => cases b <;> simp only [equal, BEq.comm]
  | numVector x => cases b <;> simp only [equal, NumVector.nearlyEqual_comm]
  | matrix x => cases b <;> simp only [equal, Matrix.nearlyEqual_comm]
  | _ => cases h

theorem equal_closure_comm (id : ℕ) (params : List Value) (body : Value) (scope : Scope)
    (b : Value) : (closure id params body scope).equal b = b.equal (closure id params body scope) := by
  cases b <;> simp only [equal, BEq.comm]

/-- The values that a value is made of. -/
def parts : Value → List Value
  | list items | vector items => items
  | map entries => Dict.flatten entries
  | closure _ params body _ => body :: params
  | _ => []

/-- A well-formed value whose maps have forms as keys. -/
structure Comparable (v : Value) : Prop where
  wellFormed : v.WellFormed
  formKeyed : v.FormKeyed

namespace Comparable

theorem of_isForm {v : Value} (h : IsForm v) : v.Comparable := ⟨h.wellFormed, h.formKeyed⟩

theorem items {v : Value} (h : v.Comparable) {items : List Value} (hitems : v.items? = some items) :
    ∀ item ∈ items, item.Comparable := by
  intro item hitem
  have hwf := h.wellFormed.items hitems item hitem
  cases h.formKeyed with
  | list hkeyed =>
    cases hitems
    exact ⟨hwf, hkeyed item hitem⟩
  | vector hkeyed =>
    cases hitems
    exact ⟨hwf, hkeyed item hitem⟩
  | atom hatom => cases v <;> first | cases hatom; done | cases hitems
  | _ => cases hitems

theorem entries {d : Dict} (h : (map d).Comparable) :
    d.Distinct ∧ (∀ e ∈ d, IsForm e.1) ∧ ∀ e ∈ d, e.2.Comparable := by
  cases h.wellFormed with
  | map hdistinct _ hvalues =>
    cases h.formKeyed with
    | atom hatom => cases hatom
    | map hforms hkeyed => exact ⟨hdistinct, hforms, fun e he => ⟨hvalues e he, hkeyed e he⟩⟩

/-- A part of a value has maps with forms as keys too. -/
theorem part {v : Value} (h : v.Comparable) : ∀ w ∈ v.parts, w.Comparable := by
  cases v with
  | list items => exact h.items rfl
  | vector items => exact h.items rfl
  | map d =>
    obtain ⟨-, hforms, hvalues⟩ := h.entries
    exact Dict.forall_flatten.mpr fun e he => ⟨of_isForm (hforms e he), hvalues e he⟩
  | closure id params body scope =>
    cases h.formKeyed with
    | atom hatom => cases hatom
    | closure hparams hbody =>
      intro w hw
      rcases List.mem_cons.mp hw with rfl | hw
      · exact of_isForm hbody
      · exact of_isForm (hparams w hw)
  | _ => exact nofun

end Comparable

theorem equal_comm_of_items {xs : List Value} {b : Value}
    (h : ∀ ys, b.items? = some ys → equalItems xs ys = equalItems ys xs) :
    (list xs).equal b = b.equal (list xs) ∧ (vector xs).equal b = b.equal (vector xs) := by
  cases b with
  | list ys => simp only [equal, h ys rfl, and_self]
  | vector ys => simp only [equal, h ys rfl, and_self]
  | _ => simp only [equal, and_self]

/-- It makes no difference which of two values is compared with the other. -/
theorem equal_comm {a b : Value} (ha : a.Comparable) (hb : b.Comparable) :
    a.equal b = b.equal a := by
  induction a using parts_induction generalizing b with
  | atom a h => exact equal_comm_of_isAtom h b
  | list xs ih =>
    apply (equal_comm_of_items fun ys hys => ?_).1
    exact equalItems_comm fun x hx y hy => ih x hx (ha.items rfl x hx) (hb.items hys y hy)
  | vector xs ih =>
    apply (equal_comm_of_items fun ys hys => ?_).2
    exact equalItems_comm fun x hx y hy => ih x hx (ha.items rfl x hx) (hb.items hys y hy)
  | map d ih =>
    cases b with
    | map e =>
      obtain ⟨hd, hdforms, hdvalues⟩ := ha.entries
      obtain ⟨he, heforms, hevalues⟩ := hb.entries
      apply equal_map_comm hd he hdforms heforms
      exact fun x hx y hy => (ih x hx).2 (hdvalues x hx) (hevalues y hy)
    | _ => simp only [equal]
  | closure id params body scope => exact equal_closure_comm id params body scope b

end Value

end MatrixLisp
