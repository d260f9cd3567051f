import Mathlib.Data.List.Basic

/-! Two parties over two reliable FIFO channels that keep to one conversation: what each has
still to say and to hear is a suffix of it, and what lies between the two suffixes was said by
the party that is ahead and is in its channel. -/
namespace Conversations

inductive Side where
  | left
  | right
  deriving DecidableEq, Repr

variable {β : Type*} {me you : Side}

/-- Symbols in the order in which they are said, each with the side that says it. -/
abbrev Script (β : Type*) := List (Side × β)

def speech (side : Side) (symbols : List β) : Script β := symbols.map (Prod.mk side)

@[simp] theorem speech_nil (side : Side) : speech side ([] : List β) = [] := rfl

theorem speech_append (side : Side) (xs ys : List β) :
    speech side (xs ++ ys) = speech side xs ++ speech side ys := List.map_append

/-- `mine` and `yours` are what the two parties have still before them, `out` and `inn` the
channels from and to the first of them. -/
inductive InStep (me you : Side) : Script β → Script β → List β → List β → Prop where
  | ahead (rest out) : InStep me you rest (speech me out ++ rest) out []
  | behind (rest inn) : InStep me you (speech you inn ++ rest) rest [] inn

theorem InStep.symm {mine yours : Script β} {out inn : List β}
    (h : InStep me you mine yours out inn) : InStep you me yours mine inn out := by
  cases h with
  | ahead => exact .behind _ _
  | behind => exact .ahead _ _

/-- What two sides say next differs as soon as it is there. -/
theorem speech_ne (h : me ≠ you) {x y : β} {xs ys : List β} {rest rest' : Script β} :
    speech me (x :: xs) ++ rest ≠ speech you (y :: ys) ++ rest' := by
  intro heq
  have hhead : (me, x) = (you, y) := (List.cons.inj heq).1
  exact h (Prod.mk.inj hhead).1

theorem InStep.say (h : me ≠ you) {said out inn : List β} {rest yours : Script β}
    (hs : InStep me you (speech me said ++ rest) yours out inn) :
    InStep me you rest yours (out ++ said) inn := by
  generalize hmine : speech me said ++ rest = mine at hs
  cases hs with
  | ahead _ out =>
    rw [← hmine, ← List.append_assoc, ← speech_append]
    exact .ahead rest (out ++ said)
  | behind rest' inn =>
    cases inn with
    | nil =>
      rw [speech_nil, List.nil_append] at hmine
      rw [← hmine]
      exact .ahead rest said
    | cons y ys =>
      -- the other party has said more already: there is nothing left to say before that
      cases said with
      | nil =>
        rw [speech_nil, List.nil_append] at hmine
        rw [hmine, List.append_nil]
        exact .behind _ (y :: ys)
      | cons x xs => exact absurd hmine (speech_ne h)

/-- What is in the channel is what is to be heard next. -/
theorem InStep.heard {words out heard inn : List β} {rest yours : Script β}
    (hs : InStep me you (speech you words ++ rest) yours out (heard ++ inn))
    (hlength : heard.length ≤ words.length) : heard = words.take heard.length := by
  generalize hmine : speech you words ++ rest = mine at hs
  generalize hinn : heard ++ inn = channel at hs
  cases hs with
  | ahead _ out =>
    rw [(List.append_eq_nil_iff.1 hinn).1]
    rfl
  | behind rest' channel =>
    rw [← hinn, speech_append, List.append_assoc] at hmine
    have htaken := congrArg (List.take heard.length) hmine
    have hheard : (speech you heard).length = heard.length := List.length_map ..
    have hwords : (speech you words).length = words.length := List.length_map ..
    rw [List.take_append_of_le_length (by omega), List.take_append_of_le_length (by omega),
      List.take_of_length_le (by omega : (speech you heard).length ≤ heard.length)] at htaken
    have hmap := congrArg (List.map Prod.snd) htaken
    simp only [speech, ← List.map_take, List.map_map] at hmap
    have hsnd : (Prod.snd ∘ Prod.mk you : β → β) = id := rfl
    simp only [hsnd, List.map_id] at hmap
    exact hmap.symm

theorem InStep.hear {heard out inn : List β} {rest yours : Script β}
    (hs : InStep me you (speech you heard ++ rest) yours out (heard ++ inn)) :
    InStep me you rest yours out inn := by
  generalize hmine : speech you heard ++ rest = mine at hs
  generalize hinn : heard ++ inn = channel at hs
  cases hs with
  | ahead _ out =>
    obtain ⟨rfl, rfl⟩ := List.append_eq_nil_iff.1 hinn
    rw [← hmine]
    exact .ahead rest out
  | behind rest' channel =>
    rw [← hinn, speech_append, List.append_assoc] at hmine
    rw [List.append_cancel_left hmine]
    exact .behind yours inn

/-- Two parties that wait for each other over empty channels have left the conversation. -/
theorem InStep.not_both_hear (h : me ≠ you) {x y : β} {xs ys : List β} {rest rest' : Script β}
    (hs : InStep me you (speech you (x :: xs) ++ rest) (speech me (y :: ys) ++ rest')
      ([] : List β) []) : False := by
  generalize hmine : speech you (x :: xs) ++ rest = mine at hs
  generalize hyours : speech me (y :: ys) ++ rest' = yours at hs
  cases hs with
  | ahead => exact speech_ne h (hyours.trans hmine.symm)
  | behind => exact speech_ne h (hyours.trans hmine.symm)

/-- A party that has something to hear from one that is through finds it in its channel. -/
theorem InStep.awaited {x : β} {xs out inn : List β} {rest : Script β}
    (hs : InStep me you (speech you (x :: xs) ++ rest) [] out inn) : inn ≠ [] := by
  rintro rfl
  generalize hmine : speech you (x :: xs) ++ rest = mine at hs
  generalize hyours : ([] : Script β) = yours at hs
  cases hs with
  | ahead => simp_all [speech]
  | behind => simp_all [speech]

/-- A party that has something to say is heard by one that is not through. -/
theorem InStep.listened (h : me ≠ you) {x : β} {xs out inn : List β} {rest : Script β} :
    ¬ InStep me you (speech me (x :: xs) ++ rest) [] out inn := by
  intro hs
  generalize hmine : speech me (x :: xs) ++ rest = mine at hs
  generalize hyours : ([] : Script β) = yours at hs
  cases hs with
  | ahead => simp_all [speech]
  | behind rest' inn =>
    cases inn with
    | nil => simp_all [speech]
    | cons y ys => exact speech_ne h hmine

end Conversations
