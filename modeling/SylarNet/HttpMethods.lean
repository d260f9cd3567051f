import Mathlib.Data.List.TakeWhile
import SylarNet.HttpSession

/-!
# Recognising the method

`on_request_method` gets the start of the method and its length. It hands the start only to
`CharsToHttpMethod`, which takes the first name that the text begins with.
-/
namespace HttpMethods

open SylarHttp HttpSession

/-- `strcmp` with each name. -/
def stringToHttpMethod (m : List UInt8) : HttpMethod :=
  match HTTP_METHOD_MAP.find? fun x => bytes x.2 == cStr m with
  | some x => x.1
  | none => .INVAILD_METHOD

/-- The method whose name is exactly the token is set, and the error if there is none. -/
structure Recognised (t tail : List UInt8) (r : Collected) : Prop where
  named : ∀ x ∈ HTTP_METHOD_MAP, bytes x.2 = t →
    onRequestMethod (t ++ 32 :: tail) r = { r with data := { r.data with method := x.1 } }
  unnamed : (∀ x ∈ HTTP_METHOD_MAP, bytes x.2 ≠ t) →
    onRequestMethod (t ++ 32 :: tail) r = { r with error := 1000 }

/-- No name of a method begins the token but the token itself. -/
def NoNameExtended (t : List UInt8) : Prop :=
  ∀ x ∈ HTTP_METHOD_MAP, bytes x.2 <+: t → bytes x.2 = t

instance (t : List UInt8) : Decidable (NoNameExtended t) :=
  inferInstanceAs (Decidable (∀ x ∈ HTTP_METHOD_MAP, _))

/-- No name begins another one, and no method has two names. -/
theorem name_unextended : ∀ x ∈ HTTP_METHOD_MAP, ∀ y ∈ HTTP_METHOD_MAP,
    bytes x.2 <+: bytes y.2 → x = y := by
  decide +kernel

theorem method_ne_invalid : ∀ x ∈ HTTP_METHOD_MAP, x.1 ≠ .INVAILD_METHOD := by
  decide +kernel

section Tokens

variable {t : List UInt8}

theorem chars_of_begins {x : HttpMethod × String} (hx : x ∈ HTTP_METHOD_MAP)
    (h : bytes x.2 <+: t) :
    ∃ y ∈ HTTP_METHOD_MAP, bytes y.2 <+: t ∧ charsToHttpMethod t = y.1 := by
  unfold charsToHttpMethod
  cases hfind : HTTP_METHOD_MAP.find? fun x => (bytes x.2).isPrefixOf t with
  | none => exact absurd (List.isPrefixOf_iff_prefix.2 h) (List.find?_eq_none.1 hfind x hx)
  | some y =>
    have hy := List.find?_some hfind
    exact ⟨y, List.mem_of_find?_eq_some hfind, List.isPrefixOf_iff_prefix.1 hy, rfl⟩

theorem chars_of_none_begins (h : ∀ x ∈ HTTP_METHOD_MAP, ¬ bytes x.2 <+: t) :
    charsToHttpMethod t = .INVAILD_METHOD := by
  unfold charsToHttpMethod
  rw [List.find?_eq_none.2 fun x hx hp => h x hx (List.isPrefixOf_iff_prefix.1 hp)]

theorem chars_of_name {x : HttpMethod × String} (hx : x ∈ HTTP_METHOD_MAP) (h : bytes x.2 = t) :
    charsToHttpMethod t = x.1 := by
  subst h
  obtain ⟨y, hy, hp, hchars⟩ := chars_of_begins hx (List.prefix_refl (bytes x.2))
  rw [hchars, name_unextended y hy x hx hp]

theorem string_of_name (h0 : (0 : UInt8) ∉ t) {x : HttpMethod × String}
    (hx : x ∈ HTTP_METHOD_MAP) (h : bytes x.2 = t) : stringToHttpMethod t = x.1 := by
  unfold stringToHttpMethod
  rw [cStr_of_notMem h0]
  cases hfind : HTTP_METHOD_MAP.find? fun x => bytes x.2 == t with
  | none => exact absurd (beq_iff_eq.2 h) (List.find?_eq_none.1 hfind x hx)
  | some y =>
    have hfound := List.find?_some hfind
    have hy : bytes y.2 = t := beq_iff_eq.1 hfound
    have hp : bytes y.2 <+: bytes x.2 := by rw [hy, h]
    exact congrArg Prod.fst (name_unextended y (List.mem_of_find?_eq_some hfind) x hx hp)

theorem string_of_no_name (h0 : (0 : UInt8) ∉ t)
    (h : ∀ x ∈ HTTP_METHOD_MAP, bytes x.2 ≠ t) : stringToHttpMethod t = .INVAILD_METHOD := by
  unfold stringToHttpMethod
  rw [cStr_of_notMem h0, List.find?_eq_none.2 fun x hx he => h x hx (beq_iff_eq.1 he)]

/-- The token is a name; it is none and extends none; or it extends one that is then taken. -/
theorem token_cases (t : List UInt8) :
    (∃ x ∈ HTTP_METHOD_MAP, bytes x.2 = t ∧ NoNameExtended t) ∨
      ((∀ x ∈ HTTP_METHOD_MAP, bytes x.2 ≠ t) ∧
        (NoNameExtended t ∧ charsToHttpMethod t = .INVAILD_METHOD ∨
          ¬ NoNameExtended t ∧ charsToHttpMethod t ≠ .INVAILD_METHOD)) := by
  by_cases hname : ∃ x ∈ HTTP_METHOD_MAP, bytes x.2 = t
  · obtain ⟨x, hx, rfl⟩ := hname
    exact .inl ⟨x, hx, rfl, fun y hy hp => by rw [name_unextended y hy x hx hp]⟩
  · have hnone : ∀ x ∈ HTTP_METHOD_MAP, bytes x.2 ≠ t := fun x hx he => hname ⟨x, hx, he⟩
    refine .inr ⟨hnone, ?_⟩
    by_cases hext : NoNameExtended t
    · exact .inl ⟨hext, chars_of_none_begins fun x hx hp => hnone x hx (hext x hx hp)⟩
    · refine .inr ⟨hext, ?_⟩
      obtain ⟨x, hx, hp⟩ : ∃ x ∈ HTTP_METHOD_MAP, bytes x.2 <+: t := by
        by_contra hno
        exact hext fun x hx hp => absurd ⟨x, hx, hp⟩ hno
      obtain ⟨y, hy, -, hchars⟩ := chars_of_begins hx hp
      rw [hchars]
      exact method_ne_invalid y hy

theorem onRequestMethod_token (t tail : List UInt8) (r : Collected) :
    onRequestMethod (t ++ 32 :: tail) r =
      if charsToHttpMethod t = .INVAILD_METHOD then { r with error := 1000 }
      else { r with data := { r.data with method := charsToHttpMethod t } } := by
  rw [onRequestMethod, charsToHttpMethod_space]

end Tokens

/-- A token is recognised if and only if it does not begin with the name of a method and go on
behind it, and the two functions agree on the same tokens. -/
theorem method_recognised_iff {t : List UInt8} (h0 : (0 : UInt8) ∉ t) (tail : List UInt8) :
    ((∀ r, Recognised t tail r) ↔ NoNameExtended t) ∧
      (charsToHttpMethod (t ++ 32 :: tail) = stringToHttpMethod t ↔ NoNameExtended t) := by
  rw [charsToHttpMethod_space]
  rcases token_cases t with ⟨x, hx, hname, hext⟩ | ⟨hnone, ⟨hext, hchars⟩ | ⟨hext, hchars⟩⟩
  · have hchars := chars_of_name hx hname
    refine ⟨iff_of_true ?_ hext, iff_of_true (hchars.trans (string_of_name h0 hx hname).symm) hext⟩
    intro r
    refine ⟨?_, fun hno => absurd hname (hno x hx)⟩
    intro y hy hy'
    rw [onRequestMethod_token, chars_of_name hy hy', if_neg (method_ne_invalid y hy)]
  · refine ⟨iff_of_true ?_ hext, iff_of_true (hchars.trans (string_of_no_name h0 hnone).symm) hext⟩
    intro r
    refine ⟨fun y hy hy' => absurd hy' (hnone y hy), ?_⟩
    intro _
    rw [onRequestMethod_token, if_pos hchars]
  · constructor
    · refine iff_of_false ?_ hext
      intro h
      have hset := (h ⟨HttpRequest.new 0x11 true, 0⟩).unnamed hnone
      rw [onRequestMethod_token, if_neg hchars] at hset
      cases congrArg Collected.error hset
    · rw [string_of_no_name h0 hnone]
      exact iff_of_false hchars hext

/-- A name, and a token that no name begins. -/
theorem method_recognised_get :
    (∀ r, Recognised (bytes "GET") (bytes "/") r) ∧
      ∀ r, Recognised (bytes "GOT") (bytes "/") r :=
  ⟨(method_recognised_iff (by decide) _).1.2 (by decide +kernel),
    (method_recognised_iff (by decide) _).1.2 (by decide +kernel)⟩

/-- `GETX` is taken for `GET`. -/
theorem method_extended :
    ¬ ∀ (t tail : List UInt8) (r : Collected), (0 : UInt8) ∉ t → Recognised t tail r := by
  intro h
  have herror := (h (bytes "GETX") (bytes "/") ⟨HttpRequest.new 0x11 true, 0⟩ (by decide)).unnamed
    (by decide +kernel)
  exact absurd herror (by decide +kernel)

end HttpMethods
