import Mathlib.Logic.Function.Basic

/-!
# Phrases of Chinese characters, pinyin syllables and initials

An `IntelligentInfo` holds one position for each content of a phrase: the id of a Chinese
character, the id of a syllable, an initial. Unused positions are zero and the empty string.
-/

namespace ISearch.Intelligent

abbrev Bytes := List UInt8

inductive CharacterType where
  | chinese | initial | wholeSpell
  deriving DecidableEq

structure Content where
  type : CharacterType
  str : Bytes
  deriving DecidableEq

structure IntelligentInfo where
  charactId : Nat → UInt16 := fun _ => 0
  phoneticId : Nat → UInt16 := fun _ => 0
  initialChar : Nat → Bytes := fun _ => []

namespace IntelligentInfo

variable (info : IntelligentInfo) (i : Nat)

def setCharact (id : UInt32) : IntelligentInfo :=
  { info with charactId := Function.update info.charactId i id.toUInt16 }

def setPhonetic (id : UInt32) : IntelligentInfo :=
  { info with phoneticId := Function.update info.phoneticId i id.toUInt16 }

def setInitial (str : Bytes) : IntelligentInfo :=
  { info with initialChar := Function.update info.initialChar i str }

end IntelligentInfo

/-- The maps from characters and syllables to ids, and the syllables of a character. -/
structure Dictionary where
  charactMap : Bytes → Option UInt32
  phoneticMap : Bytes → Option UInt32
  charactPhoneticMap : Bytes → List Bytes

namespace Dictionary

variable (d : Dictionary)

def getCharactId (charact : Bytes) : UInt32 := (d.charactMap charact).getD 0

def getPhoneticId (phonetic : Bytes) : UInt32 := (d.phoneticMap phonetic).getD 0

def getPhonetic (charact : Bytes) : List Bytes := d.charactPhoneticMap charact

end Dictionary

end ISearch.Intelligent
