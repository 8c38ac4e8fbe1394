import Mathlib.Data.Rat.Defs

/-! Conversion to SI units, in exact arithmetic. -/

namespace PureplayIngest.Shared.Domain

def mphToMpsFactor : ℚ := 0.44704
def kphToMpsFactor : ℚ := 1 / 3.6
def ftToMFactor : ℚ := 0.3048
def ydToMFactor : ℚ := 0.9144

def mphToMps (mph : ℚ) : ℚ := mph * mphToMpsFactor
def kphToMps (kph : ℚ) : ℚ := kph * kphToMpsFactor
def mpsToMps (mps : ℚ) : ℚ := mps
def ftToM (ft : ℚ) : ℚ := ft * ftToMFactor
def ydToM (yd : ℚ) : ℚ := yd * ydToMFactor

end PureplayIngest.Shared.Domain
