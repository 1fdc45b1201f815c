import Mathlib.Data.Int.Notation

/-! # Return codes (dpret.h) -/

namespace Dpapp.Ret

abbrev Dpret := ℤ

def dpeOk : Dpret := 0
def dpePerm : Dpret := -1
def dpeIntr : Dpret := -4
def dpeWait : Dpret := -11
def dpeInval : Dpret := -22
def dpeTime : Dpret := -62
def dpeBadfd : Dpret := -77
def dpeConnreset : Dpret := -104
def dpeInprogress : Dpret := -115
def dpeRepeat : Dpret := -151
def dpeEof : Dpret := -156
def dpeContinue : Dpret := -190

def dpretIsok (err : Dpret) : Prop := 0≤err
def dpretIserr (err : Dpret) : Prop := err<0

instance (err : Dpret) : Decidable (dpretIsok err) := inferInstanceAs (Decidable (_≤_))
instance (err : Dpret) : Decidable (dpretIserr err) := inferInstanceAs (Decidable (_<_))

theorem dpretIserr_iff (err : Dpret) : dpretIserr err ↔ ¬dpretIsok err := Int.not_le.symm

end Dpapp.Ret
