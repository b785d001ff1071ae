import Lax.Channel.Impl.Topic

/-!
This module contains how a topic and its group topic match.
-/

namespace Lax
namespace Topic

theorem getElem_mask {i : Nat} (hi : i < 16) : (65535#16)[i] = true := by
  have hones : 65535#16 = BitVec.allOnes 16 := rfl
  rw [hones]
  apply BitVec.getElem_allOnes

@[simp]
theorem getGroup_ofParts (group type : UInt16) : (ofParts group type).getGroup = group := by
  apply UInt16.eq_of_toBitVec_eq
  ext i hi
  have hlt : 16 + i < 32 := by omega
  have hlt' : i < 32 := by omega
  simp [ofParts, getGroup, BitVec.getLsbD_eq_getElem hi, getElem_mask hi, hlt, hlt']

@[simp]
theorem getType_ofParts (group type : UInt16) : (ofParts group type).getType = type := by
  apply UInt16.eq_of_toBitVec_eq
  ext i hi
  simp [ofParts, getType, getElem_mask hi]

theorem isMatch_self (t : Topic) : t.isMatch t = true := by
  simp [isMatch]

theorem isMatch_getGroupTopic (t : Topic) : t.getGroupTopic.isMatch t = true := by
  simp [isMatch, getGroupTopic]

theorem getGroupTopic_ne {t : Topic} (h : t.getType ≠ 0) : t.getGroupTopic ≠ t := by
  intro heq
  apply h
  rw [← heq]
  apply getType_ofParts

end Topic
end Lax
