import Corebase.JsText
import Mathlib.Data.List.Lex
import Mathlib.Data.List.Sort

namespace Corebase.RouteTable

open JsText (Text)

/-- What a pattern asks of a segment, or of all that are left. -/
inductive Part
  | word (text : Text)
  | param
  | wildcard
deriving DecidableEq

def Part.rank : Part → Nat
  | .word _ => 0
  | .param => 1
  | .wildcard => 2

/-- The values of the parameters and of the wildcard, where the pattern matches. -/
def matchParts : List Part → List Text → Option (List Text)
  | [], [] => some []
  | [.wildcard], s :: segments => some [['/'].intercalate (s :: segments)]
  | .word w :: parts, s :: segments => if s = w then matchParts parts segments else none
  | .param :: parts, s :: segments => (matchParts parts segments).map (s :: ·)
  | _, _ => none

structure Route (Method Handler : Type) where
  method : Method
  parts : List Part
  handler : Handler
deriving DecidableEq

variable {Method Handler : Type} [DecidableEq Method]

/-- The routes of a method. Where two of them first differ, the one that has a word there comes before one that has
a parameter, and that before one that has the wildcard. -/
def candidates (table : List (Route Method Handler)) (method : Method) : List (Route Method Handler) :=
  (table.filter fun r => r.method = method).insertionSort fun r r' => r.parts.map Part.rank ≤ r'.parts.map Part.rank

def find (table : List (Route Method Handler)) (method : Method) (segments : List Text) : Option (Handler × List Text) :=
  (candidates table method).findSome? fun r => (matchParts r.parts segments).map (r.handler, ·)

theorem matchParts_words (words : List Text) (parts : List Part) (segments : List Text) :
    matchParts (words.map .word ++ parts) (words ++ segments) = matchParts parts segments := by
  induction words with
  | nil => rfl
  | cons w words ih => rw [List.map_cons, List.cons_append, List.cons_append, matchParts, if_pos rfl, ih]

theorem mem_intercalate {l : List Text} {c : Char} (h : c ∈ ['/'].intercalate l) : c = '/' ∨ ∃ s ∈ l, c ∈ s := by
  induction l with
  | nil => exact absurd h List.not_mem_nil
  | cons s rest ih =>
      cases rest with
      | nil =>
          rw [List.intercalate_singleton] at h
          exact .inr ⟨s, List.mem_cons_self, h⟩
      | cons t rest =>
          rw [List.intercalate_cons_cons, List.mem_append, List.mem_append, List.mem_singleton] at h
          rcases h with (h | h) | h
          · exact .inr ⟨s, List.mem_cons_self, h⟩
          · exact .inl h
          · exact (ih h).imp_right fun ⟨s, hs, hcs⟩ => ⟨s, List.mem_cons_of_mem _ hs, hcs⟩

theorem intercalate_mem {l : List Text} {s : Text} {c : Char} (hs : s ∈ l) (hc : c ∈ s) : c ∈ ['/'].intercalate l := by
  induction l with
  | nil => exact absurd hs List.not_mem_nil
  | cons t rest ih =>
      cases rest with
      | nil =>
          obtain rfl := List.mem_singleton.mp hs
          rwa [List.intercalate_singleton]
      | cons u rest =>
          rw [List.intercalate_cons_cons]
          rcases List.mem_cons.mp hs with rfl | hs
          · exact List.mem_append_left _ (List.mem_append_left _ hc)
          · exact List.mem_append_right _ (ih hs)

end Corebase.RouteTable
