/-!
# Coloured text

Text for a terminal is painted piece by piece. Painting is switched on or
off as a whole, so every renderer has one definition for both.
-/

namespace Sluice.Text

/-- The inks the renderers use. -/
inductive Ink where
  | yellow
  | blue
  | magenta
  | cyan
  | white
  | brightBlack
  | brightRed
  | bold
  | boldRed
  deriving DecidableEq, Repr

/-- The terminal's code for an ink. -/
def Ink.code : Ink → String
  | yellow => "33"
  | blue => "34"
  | magenta => "35"
  | cyan => "36"
  | white => "37"
  | brightBlack => "90"
  | brightRed => "91"
  | bold => "1"
  | boldRed => "1;31"

/-- What switches the terminal to an ink. -/
def Ink.start (ink : Ink) : String :=
  "\x1b[" ++ ink.code ++ "m"

/-- What switches the terminal back. -/
def Ink.reset : String :=
  "\x1b[0m"

/-- Paints a piece of text if `coloured` is set. A reset inside the text is followed by the ink
again, so that the rest of the piece keeps it. -/
def paint (coloured : Bool) (ink : Ink) (text : String) : String :=
  if coloured then
    ink.start ++ text.replace Ink.reset (Ink.reset ++ ink.start) ++ Ink.reset
  else
    text

end Sluice.Text
