import Glr.Parse.Run
import Glr.Text.Buffer
import Glr.Tree.Edit

/-!
# Glr.Parser

Parsing texts.  A parse never fails: what is no text of the language ends up in
error nodes and missing tokens.  With the previous tree, edited to match the
text, unchanged parts are taken over from it.
-/

namespace Glr

open Parse

/-- Whether a tree can be reused for a text: it is of the same language and has
the length of the text. -/
def Tree.isUsable (t : Tree) (l : Language) (text : Bytes) : Bool :=
  t.language.sameAs l && t.lenBytes == text.size

/-- The start of a parse; a previous tree that cannot be reused is left out. -/
def Language.startRun (l : Language) (text : Bytes) (old : Option Tree) : Run :=
  let usable := old.filter fun t => t.isUsable l text
  let run := Run.start (usable.map Tree.root)
  if old.isSome && usable.isNone then run.say .previousTreeIgnored else run

/-- Parses a text; answers its tree and what happened. -/
def Language.parse (l : Language) (limits : Limits) (text : Bytes) (old : Option Tree) :
    Tree × List Event :=
  let result := (l.startRun text old).loop l text limits (Run.stepBound text)
  (result.1, result.2.events.reverse)

/-- Parses a text after some edits of the text of a previous tree. -/
def Language.reparse (l : Language) (limits : Limits) (old : Tree) (edits : List Edit)
    (text : Bytes) : Except EditError (Tree × List Event) :=
  match old.editAll edits with
  | .error e => .error e
  | .ok edited => .ok (l.parse limits text (some edited))

/-! ## Texts in chunks -/

/-- The text that chunks make up; an empty chunk ends it. -/
def chunkedText (chunks : List Bytes) : Bytes :=
  (chunks.takeWhile fun c => !c.isEmpty).foldl (· ++ ·) #[]

/-- Where each chunk starts that is asked for, the one that ends the text too. -/
def chunkStarts (chunks : List Bytes) : List Length :=
  (chunks.takeWhile fun c => !c.isEmpty).foldl (fun starts c =>
    match starts with
    | last :: _ => (⟨last.bytes + c.size, last.extent.advance c⟩ : Length) :: starts
    | [] => []) [Length.zero] |>.reverse

/-- Parses the text that chunks make up. -/
def Language.parseChunks (l : Language) (limits : Limits) (chunks : List Bytes)
    (old : Option Tree) : Tree × List Event :=
  l.parse limits (chunkedText chunks) old

/-- Parses the text of a buffer chunk by chunk.  `stop` says where the chunk of an
offset ends. -/
def Buffer.parse (b : Buffer) (stop : Nat → Nat) (l : Language) (limits : Limits)
    (old : Option Tree) : Tree × List Event :=
  l.parseChunks limits (b.chunksFrom stop 0) old

end Glr
