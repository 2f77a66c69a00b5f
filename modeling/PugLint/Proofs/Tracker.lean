import PugLint.Session

/-!
# Going through the tokens

What is known behind a number of tokens, which is what rules see at the last of them.

* `Trackers.behind`: what is known behind the first tokens;
* `Document.views_eq_map`: what rules see at each token of a document;
* `Document.map_token_views`: the tokens that they see.
-/

namespace PugLint

/-- What is known behind the first `n` tokens. -/
def Trackers.behind (tokens : Array PlacedToken) (tree : ElementTree) : Nat → Trackers
  | 0 => .start
  | n + 1 => (behind tokens tree n).update tokens tree n

theorem Document.viewsFrom_eq_map (document : Document) (index count : Nat) :
    document.viewsFrom (.behind document.stream.tokens document.stream.tree index) index count =
      (List.range' index count).map fun i =>
        ⟨document, .behind document.stream.tokens document.stream.tree (i + 1), i⟩ := by
  induction count generalizing index with
  | zero => rfl
  | succ count ih =>
    rw [viewsFrom, List.range'_succ, List.map_cons, ← ih (index + 1)]
    rfl

/-- At each token, rules see what is known behind it. -/
theorem Document.views_eq_map (document : Document) :
    document.views = (List.range document.stream.tokens.size).map fun i =>
      ⟨document, .behind document.stream.tokens document.stream.tree (i + 1), i⟩ := by
  rw [List.range_eq_range', ← viewsFrom_eq_map]
  rfl

/-- The tokens that rules see are those of the document. -/
theorem Document.map_token_views (document : Document) :
    document.views.map View.token = document.stream.tokens.toList := by
  rw [views_eq_map, List.map_map]
  refine List.ext_getElem (by simp) fun i _ hi => ?_
  have hsome : document.stream.tokens[i]? = some document.stream.tokens[i] :=
    Array.getElem?_eq_getElem hi
  simp [View.token, View.token?, View.tokens, hsome]

end PugLint
