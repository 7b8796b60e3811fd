import Lineage.Text.Basic

/-!
# Encodings

What an output stream makes of the texts that are written to it. Every stream takes ASCII, and no
more than that is common to all. A form of Unicode has bytes for every character, an old code page
for few. Of the surrogates one stream takes none, another one those that stand for single bytes, and
a third one spells out whatever it has no bytes for.
-/

namespace Lineage

/-- What an output stream makes of code points. -/
structure Encoding where
  /-- What comes out for a code point, if the stream can take it. -/
  spell? : CodePoint → Option String
  /-- ASCII can be taken. -/
  ascii (c : Char) (h : c.toNat < 0x80) : (spell? c).isSome = true

namespace Encoding

/-- UTF-8, which has bytes for every character and for no surrogate. -/
def utf8 : Encoding where
  spell? p := p.char?.map Char.toString
  ascii _ _ := rfl

instance : Inhabited Encoding := ⟨utf8⟩

/-- What comes out for a text, if the stream can take all of it. -/
def write? (e : Encoding) (t : Text) : Option String :=
  (t.codePoints.mapM e.spell?).map String.join

end Encoding

end Lineage
