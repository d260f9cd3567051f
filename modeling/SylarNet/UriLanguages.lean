import SylarNet.RagelLanguages
import SylarNet.UriComponents

/-!
# What the grammar of URIs accepts

The components of RFC 3986 are words of the machines that `uri.rl` has for them, with the
exception of some IPv6 addresses.
-/
namespace UriLanguages

open RagelMachine UriGrammar UriComponents
open Http11Grammar (oneOf digit alpha xdigit ascii)

variable {allowed : UInt8 → Bool} {x : Rule} {t w : List UInt8}

theorem encoded_forall {P : UInt8 → Prop} (hallowed : ∀ c, allowed c = true → P c)
    (hpercent : P 37) (hdigit : ∀ c, xdigit c = true → P c) (h : Encoded allowed t) :
    ∀ c ∈ t, P c := by
  induction h with
  | nil => exact nofun
  | char hc _ ih => exact List.forall_mem_cons.2 ⟨hallowed _ hc, ih⟩
  | percent ha hb _ ih =>
    exact List.forall_mem_cons.2 ⟨hpercent, List.forall_mem_cons.2 ⟨hdigit _ ha,
      List.forall_mem_cons.2 ⟨hdigit _ hb, ih⟩⟩⟩

theorem encoded_of_forall (h : ∀ c ∈ t, allowed c = true) : Encoded allowed t := by
  induction t with
  | nil => exact .nil
  | cons c t ih =>
    rw [List.forall_mem_cons] at h
    exact .char h.1 (ih h.2)

theorem mem_lit (s : String) : w ∈ (lit s).language ↔ w = SylarHttp.bytes s := mem_word _

theorem percent_mem {a b : UInt8} (ha : xdigit a = true) (hb : xdigit b = true) :
    [37, a, b] ∈ pctEncoded.language := by
  have hpercent : [37] ∈ (lit "%").language := (mem_lit "%").2 rfl
  have hdigit {d : UInt8} (hd : xdigit d = true) : [d] ∈ (Machine.chr xdigit : Rule).language :=
    ⟨d, hd, rfl⟩
  exact append_mem_seq (append_mem_seq hpercent (hdigit ha)) (hdigit hb)

theorem encoded_mem_star (hchar : ∀ c, allowed c = true → [c] ∈ x.language)
    (hpercent : ∀ w ∈ pctEncoded.language, w ∈ x.language) (h : Encoded allowed t) :
    t ∈ (Machine.star x).language := by
  induction h with
  | nil => exact nil_mem_language.2 rfl
  | char hc _ ih => exact append_mem_star (hchar _ hc) ih
  | percent ha hb _ ih => exact append_mem_star (hpercent _ (percent_mem ha hb)) ih

/-- A class of characters and the percent-encoded ones. -/
theorem encoded_mem {f : UInt8 → Bool} (hf : ∀ c, allowed c = true → f c = true)
    (h : Encoded allowed t) : t ∈ (Machine.star (.alt (.chr f) pctEncoded)).language := by
  apply encoded_mem_star _ _ h
  · exact fun c hc => mem_alt.2 (.inl ⟨c, hf c hc, rfl⟩)
  · exact fun w hw => mem_alt.2 (.inr hw)

theorem userinfo_mem (h : Encoded userinfoChar t) : t ∈ userinfo.language :=
  encoded_mem (fun _ h => h) h

theorem regName_mem (h : Encoded regNameChar t) : t ∈ regName.language :=
  encoded_mem (fun _ h => h) h

theorem pcharChar_of_segmentChar {c : UInt8} (h : segmentChar c = true) : pcharChar c = true := by
  rw [segmentChar, Bool.or_assoc] at h
  simp only [Bool.or_eq_true, pcharChar] at h ⊢
  tauto

theorem segment_mem (h : Encoded segmentChar t) : t ∈ segment.language :=
  encoded_mem (fun _ => pcharChar_of_segmentChar) h

theorem pchars_mem (h : Encoded queryChar t) : t ∈ pchars.language := by
  apply encoded_mem_star _ _ h
  · intro c hc
    rw [queryChar, Bool.or_eq_true] at hc
    rcases hc with hc | hc
    · exact mem_alt.2 (.inl (mem_alt.2 (.inl ⟨c, pcharChar_of_segmentChar hc, rfl⟩)))
    · exact mem_alt.2 (.inr ⟨c, hc, rfl⟩)
  · exact fun w hw => mem_alt.2 (.inl (mem_alt.2 (.inr hw)))

theorem path_mem (c : Parts) : c.pathText ∈ pathAbempty.language := by
  apply mem_seq.2
  refine ⟨[], mem_opt.2 (.inr rfl), c.pathText, ?_, rfl⟩
  rw [Parts.pathText]
  induction c.path with
  | nil => exact nil_mem_language.2 rfl
  | cons s path ih =>
    rw [List.flatMap_cons]
    apply append_mem_star _ ih
    exact append_mem_seq ((mem_lit "/").2 rfl) (segment_mem s.encoded)

theorem digits_mem {ds : List UInt8} (h : ∀ c ∈ ds, digit c = true) : ds ∈ port.language := by
  induction ds with
  | nil => exact nil_mem_language.2 rfl
  | cons c ds ih =>
    rw [List.forall_mem_cons] at h
    have hc : [c] ∈ (Machine.chr digit : Rule).language := ⟨c, h.1, rfl⟩
    exact append_mem_star hc (ih h.2)

theorem encoded_no_colon (h : Encoded userinfoChar t) (hcolon : 58 ∉ t) :
    Encoded regNameChar t := by
  induction h with
  | nil => exact .nil
  | @char c t hc _ ih =>
    rw [List.mem_cons, not_or] at hcolon
    rw [userinfoChar, Bool.or_eq_true, beq_iff_eq] at hc
    exact .char (hc.resolve_right (Ne.symm hcolon.1)) (ih hcolon.2)
  | percent ha hb _ ih =>
    simp only [List.mem_cons, not_or] at hcolon
    exact .percent ha hb (ih hcolon.2.2.2)

/-- What stands before the first colon of the user information reads as a host. -/
theorem encoded_before_colon (h : Encoded userinfoChar w) {before after : List UInt8}
    (hw : w = before ++ 58 :: after) (hbefore : 58 ∉ before) : Encoded regNameChar before := by
  induction h generalizing before with
  | nil => simp at hw
  | @char c t hc ht ih =>
    cases before with
    | nil => exact .nil
    | cons d before =>
      rw [List.cons_append, List.cons.injEq] at hw
      obtain ⟨rfl, hw⟩ := hw
      rw [List.mem_cons, not_or] at hbefore
      refine .char ?_ (ih hw hbefore.2)
      rw [userinfoChar, Bool.or_eq_true, beq_iff_eq] at hc
      exact hc.resolve_right (Ne.symm hbefore.1)
  | @percent a b t ha hb ht ih =>
    match before, hw with
    | [], hw => simp at hw
    | [_], hw =>
      simp only [List.cons_append, List.nil_append, List.cons.injEq] at hw
      rw [hw.2.1] at ha
      cases ha
    | [_, _], hw =>
      simp only [List.cons_append, List.nil_append, List.cons.injEq] at hw
      rw [hw.2.2.1] at hb
      cases hb
    | c :: d :: e :: before, hw =>
      simp only [List.cons_append, List.cons.injEq] at hw
      obtain ⟨rfl, rfl, rfl, hw⟩ := hw
      simp only [List.mem_cons, not_or] at hbefore
      exact .percent ha hb (ih hw hbefore.2.2.2)

end UriLanguages
