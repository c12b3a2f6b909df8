import SymbolAtlas.FileTree.Basic
import SymbolAtlas.Text.Word

/-!
# The word under a caret

## Main Definitions

* `resolveWord`: the word under a caret of a file, or nothing.
-/

namespace SymbolAtlas

/-- The word under a caret, from the given text or from the file.  A file that
cannot be read and a caret outside the text give the empty word. -/
def resolveWord (tree : FileTree) (file : Path) (buffer : Option String) (line column : Nat) :
    String :=
  let source := match buffer with
    | some text => some text
    | none => (tree.readText file).toOption
  match source with
  | none => ""
  | some text =>
    match wordAt text line column with
    | .ok word => word.text
    | .error _ => ""

end SymbolAtlas
