import Mathlib.Data.List.Forall2
import Mathlib.Tactic.Common

/-!
Texts whose parts are ended by a delimiter that does not occur in them: the parts
can be told apart again.
-/
namespace Lines
variable {α β : Type}

theorem exists_first (p : β → Prop) (l : List β) :
    (∀ a ∈ l, ¬ p a) ∨ ∃ pre a rest, l = pre ++ a :: rest ∧ (∀ b ∈ pre, ¬ p b) ∧ p a := by
  induction l with
  | nil => exact .inl (by simp)
  | cons a l ih =>
      by_cases ha : p a
      · exact .inr ⟨[], a, l, rfl, by simp, ha⟩
      · rcases ih with hnone | ⟨pre, b, rest, rfl, hpre, hb⟩
        · exact .inl (by simpa [ha] using hnone)
        · exact .inr ⟨a :: pre, b, rest, rfl, by simpa [ha] using hpre, hb⟩

/-- Two delimited fields are told apart by what stands before the delimiter. -/
theorem field_inj {d : β} {x x' y y' : List β} (hx : d ∉ x) (hx' : d ∉ x') :
    x ++ d :: y = x' ++ d :: y' ↔ x = x' ∧ y = y' := by
  constructor
  · intro h
    induction x generalizing x' with
    | nil =>
        cases x' with
        | nil => exact ⟨rfl, (List.cons.inj h).2⟩
        | cons c x' =>
            have hd : d = c := (List.cons.inj h).1
            exact absurd (by simp [hd]) hx'
    | cons c x ih =>
        cases x' with
        | nil =>
            have hd : c = d := (List.cons.inj h).1
            exact absurd (by simp [hd]) hx
        | cons c' x' =>
            obtain ⟨hc, hrest⟩ := List.cons.inj h
            obtain ⟨hxx, hyy⟩ := ih (fun hm => hx (by simp [hm]))
              (fun hm => hx' (by simp [hm])) hrest
            exact ⟨by rw [hc, hxx], hyy⟩
  · rintro ⟨rfl, rfl⟩
    rfl

/-- One line: `newline` stands at its end and nowhere else. -/
def IsLine (newline : β) (text : List β) : Prop :=
  ∃ body, text = body ++ [newline] ∧ newline ∉ body

/-- A text of lines determines them. -/
theorem flatMap_eq_iff {newline : β} {line : α → List β}
    (h : ∀ a, IsLine newline (line a)) {as bs : List α} :
    as.flatMap line = bs.flatMap line ↔ List.Forall₂ (fun a b => line a = line b) as bs := by
  constructor
  · intro heq
    induction as generalizing bs with
    | nil =>
        cases bs with
        | nil => exact .nil
        | cons b bs =>
            obtain ⟨body, hb, -⟩ := h b
            simp [hb] at heq
    | cons a as ih =>
        obtain ⟨body, ha, hbody⟩ := h a
        cases bs with
        | nil => simp [ha] at heq
        | cons b bs =>
            obtain ⟨body', hb, hbody'⟩ := h b
            rw [List.flatMap_cons, List.flatMap_cons, ha, hb, List.append_assoc,
              List.append_assoc] at heq
            obtain ⟨hline, hrest⟩ := (field_inj hbody hbody').mp heq
            exact .cons (by rw [ha, hb, hline]) (ih hrest)
  · intro hall
    induction hall with
    | nil => rfl
    | cons hab _ ih => rw [List.flatMap_cons, List.flatMap_cons, hab, ih]

section Delimiters
variable [DecidableEq β] {d : β} {x y : List β}

/-- What stands before the first `d`. -/
def upTo (d : β) (text : List β) : List β := text.takeWhile (· ≠ d)

/-- What stands after the first `d`. -/
def past (d : β) (text : List β) : List β := (text.dropWhile (· ≠ d)).tail

theorem upTo_field (hx : d ∉ x) : upTo d (x ++ d :: y) = x := by
  rw [upTo, List.takeWhile_append_of_pos fun a ha => by simpa using ne_of_mem_of_not_mem ha hx]
  simp

theorem past_field (hx : d ∉ x) : past d (x ++ d :: y) = y := by
  rw [past, List.dropWhile_append_of_pos fun a ha => by simpa using ne_of_mem_of_not_mem ha hx]
  simp

omit [DecidableEq β] in
theorem filter_intercalate (p : β → Bool) (sep : List β) (fields : List (List β)) :
    (sep.intercalate fields).filter p =
      (sep.filter p).intercalate (fields.map (List.filter p)) := by
  induction fields with
  | nil => rfl
  | cons field fields ih =>
      cases fields with
      | nil => simp
      | cons next fields =>
          rw [List.intercalate_cons_cons, List.map_cons, List.map_cons,
            List.intercalate_cons_cons, List.filter_append, List.filter_append, ih]
          simp

omit [DecidableEq β] in
theorem not_mem_intercalate {sep : List β} {fields : List (List β)} (hsep : d ∉ sep)
    (h : ∀ field ∈ fields, d ∉ field) : d ∉ sep.intercalate fields := by
  induction fields with
  | nil => simp
  | cons field fields ih =>
      have hfirst := h field (by simp)
      have hrest := ih fun field' hfield' => h field' (by simp [hfield'])
      cases fields with
      | nil => simpa using hfirst
      | cons next fields =>
          rw [List.intercalate_cons_cons]
          simp [hfirst, hsep, hrest]

end Delimiters
end Lines
