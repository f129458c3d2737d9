import GranolaSdr.Cuda.Ldpc

/-!
# The LDPC code of JS8

The tables of the JS8 sum-product decoder, the generator of the JS8 ordered-statistics decoder, and
their agreement: both describe one code of length 174 with 87 message bits, which stand behind the
parity bits.

## Main definitions

* `k_check_var_j`, `k_check_deg`, `k_var_adj`, `js8`: the tables;
* `g_js8_gen`: the generator;
* `js8_osd_decode`: the ordered-statistics decoder.

## Main results

* `agree`: the tables agree with the generator;
* `checks_iff_codeword`: what follows for the two decoders.
-/

namespace GranolaSdr.Cuda.Ldpc.Js8

open Osd

def k_check_var_j : List (List ℤ) :=
  [[0, 29, 59, 88, 117, 146, -1],
   [1, 30, 60, 89, 118, 146, -1],
   [2, 31, 61, 90, 119, 147, -1],
   [3, 32, 62, 91, 120, 148, -1],
   [1, 33, 63, 92, 121, 149, -1],
   [4, 32, 64, 93, 122, 147, -1],
   [5, 33, 65, 94, 123, 150, -1],
   [6, 34, 66, 95, 119, 151, -1],
   [7, 35, 67, 96, 124, 152, -1],
   [8, 36, 68, 97, 125, 151, -1],
   [9, 37, 69, 98, 126, 153, -1],
   [10, 38, 70, 99, 125, 154, -1],
   [11, 39, 60, 100, 127, 144, -1],
   [9, 32, 59, 94, 127, 155, -1],
   [12, 40, 71, 96, 125, 156, -1],
   [12, 41, 72, 89, 128, 155, -1],
   [13, 38, 73, 98, 129, 157, -1],
   [14, 42, 74, 101, 130, 158, -1],
   [15, 42, 70, 102, 117, 159, -1],
   [16, 43, 75, 97, 129, 155, -1],
   [17, 44, 59, 95, 131, 160, -1],
   [18, 45, 72, 82, 132, 161, -1],
   [11, 37, 76, 101, 133, 162, -1],
   [18, 46, 77, 103, 134, 146, -1],
   [0, 31, 76, 104, 135, 163, -1],
   [19, 47, 72, 105, 122, 162, -1],
   [20, 40, 78, 106, 136, 164, -1],
   [21, 41, 65, 107, 137, 151, -1],
   [17, 41, 79, 108, 138, 153, -1],
   [22, 48, 80, 109, 134, 165, -1],
   [15, 49, 81, 90, 128, 157, -1],
   [2, 47, 62, 106, 123, 166, -1],
   [5, 50, 66, 110, 133, 154, -1],
   [23, 34, 76, 99, 121, 161, -1],
   [19, 44, 75, 111, 139, 156, -1],
   [20, 35, 63, 91, 129, 158, -1],
   [7, 51, 82, 110, 117, 165, -1],
   [20, 52, 83, 112, 137, 167, -1],
   [24, 50, 78, 88, 121, 157, -1],
   [21, 43, 74, 106, 132, 154, 171],
   [8, 53, 83, 89, 140, 168, -1],
   [21, 53, 84, 109, 135, 160, -1],
   [7, 36, 64, 101, 128, 169, -1],
   [18, 38, 84, 113, 138, 149, -1],
   [25, 54, 70, 92, 141, 166, -1],
   [26, 55, 64, 95, 132, 159, 173],
   [27, 30, 85, 99, 116, 170, -1],
   [27, 51, 69, 103, 131, 143, -1],
   [23, 56, 67, 94, 136, 141, -1],
   [6, 29, 71, 109, 142, 150, -1],
   [3, 50, 75, 114, 126, 167, -1],
   [15, 44, 86, 113, 124, 171, -1],
   [14, 29, 85, 114, 122, 149, -1],
   [22, 45, 63, 90, 143, 172, -1],
   [22, 34, 74, 112, 144, 152, -1],
   [13, 40, 86, 107, 116, 148, 169],
   [24, 39, 84, 93, 123, 158, -1],
   [24, 57, 68, 115, 142, 173, -1],
   [28, 42, 60, 115, 131, 161, -1],
   [14, 57, 87, 111, 120, 163, -1],
   [3, 58, 71, 113, 118, 162, 172],
   [26, 46, 85, 97, 133, 152, -1],
   [4, 43, 77, 108, 140, -1, -1],
   [9, 45, 68, 102, 135, 164, -1],
   [8, 49, 58, 92, 127, 163, -1],
   [13, 56, 57, 108, 119, 165, -1],
   [16, 54, 61, 115, 124, 153, -1],
   [2, 53, 69, 100, 139, 169, -1],
   [0, 35, 81, 107, 126, 173, -1],
   [4, 52, 80, 104, 139, -1, -1],
   [28, 52, 66, 98, 141, 172, -1],
   [17, 48, 73, 96, 114, 166, -1],
   [1, 56, 62, 102, 137, 156, -1],
   [25, 37, 78, 111, 134, 170, -1],
   [10, 51, 65, 87, 118, 147, -1],
   [19, 39, 67, 116, 140, 159, -1],
   [10, 47, 80, 88, 145, 168, -1],
   [28, 46, 79, 91, 145, 171, -1],
   [5, 31, 86, 103, 144, 168, -1],
   [26, 33, 73, 105, 130, 164, -1],
   [11, 55, 83, 87, 138, -1, -1],
   [12, 55, 61, 110, 145, 170, -1],
   [25, 36, 79, 104, 143, 150, -1],
   [16, 30, 81, 112, 120, 160, -1],
   [27, 48, 58, 93, 136, -1, -1],
   [6, 54, 82, 100, 130, 167, -1],
   [23, 49, 77, 105, 142, 148, -1]]

def k_check_deg : List ℕ :=
  [6, 6, 6, 6, 6, 6, 6, 6, 6, 6,
   6, 6, 6, 6, 6, 6, 6, 6, 6, 6,
   6, 6, 6, 6, 6, 6, 6, 6, 6, 6,
   6, 6, 6, 6, 6, 6, 6, 6, 6, 7,
   6, 6, 6, 6, 6, 7, 6, 6, 6, 6,
   6, 6, 6, 6, 6, 7, 6, 6, 6, 6,
   7, 6, 5, 6, 6, 6, 6, 6, 6, 5,
   6, 6, 6, 6, 6, 6, 6, 6, 6, 6,
   5, 6, 6, 6, 5, 6, 6]

def k_var_adj : List (List (ℕ × ℕ)) :=
  [[(0, 0), (24, 0), (68, 0)], [(1, 0), (4, 0), (72, 0)], [(2, 0), (31, 0), (67, 0)],
   [(3, 0), (50, 0), (60, 0)], [(5, 0), (62, 0), (69, 0)], [(6, 0), (32, 0), (78, 0)],
   [(7, 0), (49, 0), (85, 0)], [(8, 0), (36, 0), (42, 0)], [(9, 0), (40, 0), (64, 0)],
   [(10, 0), (13, 0), (63, 0)], [(11, 0), (74, 0), (76, 0)], [(12, 0), (22, 0), (80, 0)],
   [(14, 0), (15, 0), (81, 0)], [(16, 0), (55, 0), (65, 0)], [(17, 0), (52, 0), (59, 0)],
   [(18, 0), (30, 0), (51, 0)], [(19, 0), (66, 0), (83, 0)], [(20, 0), (28, 0), (71, 0)],
   [(21, 0), (23, 0), (43, 0)], [(25, 0), (34, 0), (75, 0)], [(26, 0), (35, 0), (37, 0)],
   [(27, 0), (39, 0), (41, 0)], [(29, 0), (53, 0), (54, 0)], [(33, 0), (48, 0), (86, 0)],
   [(38, 0), (56, 0), (57, 0)], [(44, 0), (73, 0), (82, 0)], [(45, 0), (61, 0), (79, 0)],
   [(46, 0), (47, 0), (84, 0)], [(58, 0), (70, 0), (77, 0)], [(0, 1), (49, 1), (52, 1)],
   [(1, 1), (46, 1), (83, 1)], [(2, 1), (24, 1), (78, 1)], [(3, 1), (5, 1), (13, 1)],
   [(4, 1), (6, 1), (79, 1)], [(7, 1), (33, 1), (54, 1)], [(8, 1), (35, 1), (68, 1)],
   [(9, 1), (42, 1), (82, 1)], [(10, 1), (22, 1), (73, 1)], [(11, 1), (16, 1), (43, 1)],
   [(12, 1), (56, 1), (75, 1)], [(14, 1), (26, 1), (55, 1)], [(15, 1), (27, 1), (28, 1)],
   [(17, 1), (18, 1), (58, 1)], [(19, 1), (39, 1), (62, 1)], [(20, 1), (34, 1), (51, 1)],
   [(21, 1), (53, 1), (63, 1)], [(23, 1), (61, 1), (77, 1)], [(25, 1), (31, 1), (76, 1)],
   [(29, 1), (71, 1), (84, 1)], [(30, 1), (64, 1), (86, 1)], [(32, 1), (38, 1), (50, 1)],
   [(36, 1), (47, 1), (74, 1)], [(37, 1), (69, 1), (70, 1)], [(40, 1), (41, 1), (67, 1)],
   [(44, 1), (66, 1), (85, 1)], [(45, 1), (80, 1), (81, 1)], [(48, 1), (65, 1), (72, 1)],
   [(57, 1), (59, 1), (65, 2)], [(60, 1), (64, 2), (84, 2)], [(0, 2), (13, 2), (20, 2)],
   [(1, 2), (12, 2), (58, 2)], [(2, 2), (66, 2), (81, 2)], [(3, 2), (31, 2), (72, 2)],
   [(4, 2), (35, 2), (53, 2)], [(5, 2), (42, 2), (45, 2)], [(6, 2), (27, 2), (74, 2)],
   [(7, 2), (32, 2), (70, 2)], [(8, 2), (48, 2), (75, 2)], [(9, 2), (57, 2), (63, 2)],
   [(10, 2), (47, 2), (67, 2)], [(11, 2), (18, 2), (44, 2)], [(14, 2), (49, 2), (60, 2)],
   [(15, 2), (21, 2), (25, 2)], [(16, 2), (71, 2), (79, 2)], [(17, 2), (39, 2), (54, 2)],
   [(19, 2), (34, 2), (50, 2)], [(22, 2), (24, 2), (33, 2)], [(23, 2), (62, 2), (86, 2)],
   [(26, 2), (38, 2), (73, 2)], [(28, 2), (77, 2), (82, 2)], [(29, 2), (69, 2), (76, 2)],
   [(30, 2), (68, 2), (83, 2)], [(21, 3), (36, 2), (85, 2)], [(37, 2), (40, 2), (80, 2)],
   [(41, 2), (43, 2), (56, 2)], [(46, 2), (52, 2), (61, 2)], [(51, 2), (55, 2), (78, 2)],
   [(59, 2), (74, 3), (80, 3)], [(0, 3), (38, 3), (76, 3)], [(1, 3), (15, 3), (40, 3)],
   [(2, 3), (30, 3), (53, 3)], [(3, 3), (35, 3), (77, 3)], [(4, 3), (44, 3), (64, 3)],
   [(5, 3), (56, 3), (84, 3)], [(6, 3), (13, 3), (48, 3)], [(7, 3), (20, 3), (45, 3)],
   [(8, 3), (14, 3), (71, 3)], [(9, 3), (19, 3), (61, 3)], [(10, 3), (16, 3), (70, 3)],
   [(11, 3), (33, 3), (46, 3)], [(12, 3), (67, 3), (85, 3)], [(17, 3), (22, 3), (42, 3)],
   [(18, 3), (63, 3), (72, 3)], [(23, 3), (47, 3), (78, 3)], [(24, 3), (69, 3), (82, 3)],
   [(25, 3), (79, 3), (86, 3)], [(26, 3), (31, 3), (39, 3)], [(27, 3), (55, 3), (68, 3)],
   [(28, 3), (62, 3), (65, 3)], [(29, 3), (41, 3), (49, 3)], [(32, 3), (36, 3), (81, 3)],
   [(34, 3), (59, 3), (73, 3)], [(37, 3), (54, 3), (83, 3)], [(43, 3), (51, 3), (60, 3)],
   [(50, 3), (52, 3), (71, 4)], [(57, 3), (58, 3), (66, 3)], [(46, 4), (55, 4), (75, 3)],
   [(0, 4), (18, 4), (36, 4)], [(1, 4), (60, 4), (74, 4)], [(2, 4), (7, 4), (65, 4)],
   [(3, 4), (59, 4), (83, 4)], [(4, 4), (33, 4), (38, 4)], [(5, 4), (25, 4), (52, 4)],
   [(6, 4), (31, 4), (56, 4)], [(8, 4), (51, 4), (66, 4)], [(9, 4), (11, 4), (14, 4)],
   [(10, 4), (50, 4), (68, 4)], [(12, 4), (13, 4), (64, 4)], [(15, 4), (30, 4), (42, 4)],
   [(16, 4), (19, 4), (35, 4)], [(17, 4), (79, 4), (85, 4)], [(20, 4), (47, 4), (58, 4)],
   [(21, 4), (39, 4), (45, 4)], [(22, 4), (32, 4), (61, 4)], [(23, 4), (29, 4), (73, 4)],
   [(24, 4), (41, 4), (63, 4)], [(26, 4), (48, 4), (84, 4)], [(27, 4), (37, 4), (72, 4)],
   [(28, 4), (43, 4), (80, 4)], [(34, 4), (67, 4), (69, 4)], [(40, 4), (62, 4), (75, 4)],
   [(44, 4), (48, 5), (70, 4)], [(49, 4), (57, 4), (86, 4)], [(47, 5), (53, 4), (82, 4)],
   [(12, 5), (54, 4), (78, 4)], [(76, 4), (77, 4), (81, 4)], [(0, 5), (1, 5), (23, 5)],
   [(2, 5), (5, 5), (74, 5)], [(3, 5), (55, 5), (86, 5)], [(4, 5), (43, 5), (52, 5)],
   [(6, 5), (49, 5), (82, 5)], [(7, 5), (9, 5), (27, 5)], [(8, 5), (54, 5), (61, 5)],
   [(10, 5), (28, 5), (66, 5)], [(11, 5), (32, 5), (39, 5)], [(13, 5), (15, 5), (19, 5)],
   [(14, 5), (34, 5), (72, 5)], [(16, 5), (30, 5), (38, 5)], [(17, 5), (35, 5), (56, 5)],
   [(18, 5), (45, 5), (75, 5)], [(20, 5), (41, 5), (83, 5)], [(21, 5), (33, 5), (58, 5)],
   [(22, 5), (25, 5), (60, 5)], [(24, 5), (59, 5), (64, 5)], [(26, 5), (63, 5), (79, 5)],
   [(29, 5), (36, 5), (65, 5)], [(31, 5), (44, 5), (71, 5)], [(37, 5), (50, 5), (85, 5)],
   [(40, 5), (76, 5), (78, 5)], [(42, 5), (55, 6), (67, 5)], [(46, 5), (73, 5), (81, 5)],
   [(39, 6), (51, 5), (77, 5)], [(53, 5), (60, 6), (70, 5)], [(45, 6), (57, 5), (68, 5)]]

/-- The tables of the sum-product decoder. -/
def js8 : Tables where
  M := 87
  k_check_var_j := k_check_var_j
  k_check_deg := k_check_deg
  k_var_adj := k_var_adj

/-- The rows of the generator, each in two halves of 87 columns, the first column in front. -/
def js8GenRows : List (List ℕ) :=
  [[0b001000101001000100111011100101001110111101001010110000111101011111000110110000110001010,
    0b100000000000000000000000000000000000000000000000000000000000000000000000000000000000000],
   [0b001110100101111101110110100001001000011111001101111011100110010000100010001001100001000,
    0b010000000000000000000000000000000000000000000000000000000000000000000000000000000000000],
   [0b100011010000010010100001110100101101110000001101101001101001001100001100110111001010101,
    0b001000000000000000000000000000000000000000000000000000000000000000000000000000000000000],
   [0b010100010100010110110111011000011001010101100110110000101010100110000000111110010110101,
    0b000100000000000000000000000000000000000000000000000000000000000000000000000000000000000],
   [0b011011110000010010011010111011101100101000111101000001011001010000111010001000101011111,
    0b000010000000000000000000000000000000000000000000000000000000000000000000000000000000000],
   [0b010100011111010011001001110010011001001000001000110111011010110010001100000110111100101,
    0b000001000000000000000000000000000000000000000000000000000000000000000000000000000000000],
   [0b111110110100010100010001001101011011000100110101110000001010100110000100011100001010011,
    0b000000100000000000000000000000000000000000000000000000000000000000000000000000000000000],
   [0b110011110001110111111100010110100111000100100000011110111011000011000001111111110000101,
    0b000000010000000000000000000000000000000000000000000000000000000000000000000000000000000],
   [0b110110001110111101000110101010100110111010111101100010010111001011000000100110110101110,
    0b000000001000000000000000000000000000000000000000000000000000000000000000000000000000000],
   [0b001110100110101001110111001101100111100100110010010000101111111111001110100100011100100,
    0b000000000100000000000000000000000000000000000000000000000000000000000000000000000000000],
   [0b101111110011111000010110100110001111100101111001101111100101010100000011010010010001011,
    0b000000000010000000000000000000000000000000000000000000000000000000000000000000000000000],
   [0b101101001000111001010111110110011111101011110011000010010111000110110110010101101001110,
    0b000000000001000000000000000000000000000000000000000000000000000000000000000000000000000],
   [0b111000111110101110100110110010000100111100001111101001001111110001110011111110000110010,
    0b000000000000100000000000000000000000000000000000000000000000000000000000000000000000000],
   [0b010101101111101010100000101110011011101101010100111010001100110111010101011011011101010,
    0b000000000000010000000000000000000000000000000000000000000000000000000000000000000000000],
   [0b111110010010010111001001000100111111010001010001011010101011000001100110111000100010001,
    0b000000000000001000000000000000000000000000000000000000000000000000000000000000000000000],
   [0b101111001111110011110011100111001000001101111111111010001000010001001101001010000101011,
    0b000000000000000100000000000000000000000000000000000000000000000000000000000000000000000],
   [0b100110011101100111100000010011111101111001001110010110000000110101000011010101000001010,
    0b000000000000000010000000000000000000000000000000000000000000000000000000000000000000000],
   [0b010001101010010000011001101000010010000111110110101000111010110101001011111101011001000,
    0b000000000000000001000000000000000000000000000000000000000000000000000000000000000000000],
   [0b101000100101011100101011101100000001001110011101011010110111010000110111001111001000010,
    0b000000000000000000100000000000000000000000000000000000000000000000000000000000000000000],
   [0b011010001010101110101111100000110000110011010010010100111100000110000110001010111011111,
    0b000000000000000000010000000000000000000000000000000000000000000000000000000000000000000],
   [0b100001100111011000110001110000100101000011101110110111000111100100110111110010111111111,
    0b000000000000000000001000000000000000000000000000000000000000000000000000000000000000000],
   [0b010010010111111000111111111101110101001100001110010001101111010011000101101010111111001,
    0b000000000000000000000100000000000000000000000000000000000000000000000000000000000000000],
   [0b001110111101001010110011011001010101000111011010011110101101001111101101101010110101101,
    0b000000000000000000000010000000000000000000000000000000000000000000000000000000000000000],
   [0b010100000000100001110111001110110001011011101011011011110010011100010110011010101111001,
    0b000000000000000000000001000000000000000000000000000000000000000000000000000000000000000],
   [0b010011111110000110011010010001110010010001001010011000011101010111011010100111111011010,
    0b000000000000000000000000100000000000000000000000000000000000000000000000000000000000000],
   [0b010000111111001001001111100011000111111000000100010010001101100001000000011000111111100,
    0b000000000000000000000000010000000000000000000000000000000000000000000000000000000000000],
   [0b100011110010110100100110111110101010110100011111101011011001101001011111110110000111001,
    0b000000000000000000000000001000000000000000000000000000000000000000000000000000000000000],
   [0b111110111010000010001110100101100111011000010100000000010010011011001100010010101011100,
    0b000000000000000000000000000100000000000000000000000000000000000000000000000000000000000],
   [0b010000100011000011011000001011101000111100000101001101000001001110101100010100110011110,
    0b000000000000000000000000000010000000000000000000000000000000000000000000000000000000000],
   [0b001010111100011011111000010111000001001000100001111000010101010010101110000101111111000,
    0b000000000000000000000000000001000000000000000000000000000000000000000000000000000000000],
   [0b011100001111000011111110101110100000011101100010000111010011011100001000111100101000000,
    0b000000000000000000000000000000100000000000000000000000000000000000000000000000000000000],
   [0b001111010001000101010111101111001010111010010101010000110011110001111111010100111010111,
    0b000000000000000000000000000000010000000000000000000000000000000000000000000000000000000],
   [0b101010110101101110000100100010100111001000001111111100110111100111100111111111001000110,
    0b000000000000000000000000000000001000000000000000000000000000000000000000000000000000000],
   [0b101110110101000111011101011101001001101101011000011010011110011000101110110010100010110,
    0b000000000000000000000000000000000100000000000000000000000000000000000000000000000000000],
   [0b110011001110101010111001110110000110111110011110110100111101100110100000111010001111011,
    0b000000000000000000000000000000000010000000000000000000000000000000000000000000000000000],
   [0b000101101011101111101111111110110100100001001011110100001100111110100011001110100011100,
    0b000000000000000000000000000000000001000000000000000000000000000000000000000000000000000],
   [0b001001100000011000100111100010110101010110000010110100000110100101110101011010100110110,
    0b000000000000000000000000000000000000100000000000000000000000000000000000000000000000000],
   [0b001000111111000000010101011001100111110000101101010001010001110101010010001000000110010,
    0b000000000000000000000000000000000000010000000000000000000000000000000000000000000000000],
   [0b100110001110101110000001010110000000110000101011000110111111001010001000100111000111010,
    0b000000000000000000000000000000000000001000000000000000000000000000000000000000000000000],
   [0b011100010110001010001100110100001000000101110111010101011110110110010010100001110101010,
    0b000000000000000000000000000000000000000100000000000000000000000000000000000000000000000],
   [0b011011010101100110011000111101011111100100111000000010110011101000101101101010100110010,
    0b000000000000000000000000000000000000000010000000000000000000000000000000000000000000000],
   [0b000110001011111101011101110101111001101001110000110100100101110000010001100110101111101,
    0b000000000000000000000000000000000000000001000000000000000000000000000000000000000000000],
   [0b100110111111101100111011010100000101000101011011111011011101001111101111011010110010110,
    0b000000000000000000000000000000000000000000100000000000000000000000000000000000000000000],
   [0b101100011001011010000000011010111101010001001101100110100111100111001100110100011001011,
    0b000000000000000000000000000000000000000000010000000000000000000000000000000000000000000],
   [0b110110110100011000010000101100000011010110010101100000000101101110000001011110101010010,
    0b000000000000000000000000000000000000000000001000000000000000000000000000000000000000000],
   [0b010101010111101110101000111010101000011111110100111010111110000111010000010001011010011,
    0b000000000000000000000000000000000000000000000100000000000000000000000000000000000000000],
   [0b101000001111010000001010010101001011111110000100000111111010011010110001000010001010110,
    0b000000000000000000000000000000000000000000000010000000000000000000000000000000000000000],
   [0b100101011000001100101001100011000001110011100001011111001100001001000101100010011000101,
    0b000000000000000000000000000000000000000000000001000000000000000000000000000000000000000],
   [0b001001100010100010111011011000010011001001000111111001110010000001010001010100110101000,
    0b000000000000000000000000000000000000000000000000100000000000000000000000000000000000000],
   [0b110000001000000001101111011110101000111001100011010011000001001110000110111010001100000,
    0b000000000000000000000000000000000000000000000000010000000000000000000000000000000000000],
   [0b101000110011111101010010110100011101010100010010011010010111001111100111111101011010011,
    0b000000000000000000000000000000000000000000000000001000000000000000000000000000000000000],
   [0b011010100110010010100001111001110100111001001001001011101001000011101000100111000001111,
    0b000000000000000000000000000000000000000000000000000100000000000000000000000000000000000],
   [0b111110101010101110010100010000101011010001001111010101001101010100011111001111010010010,
    0b000000000000000000000000000000000000000000000000000010000000000000000000000000000000000],
   [0b011100000101010001010010101100111011100100001011011010001010000110111100010011011101001,
    0b000000000000000000000000000000000000000000000000000001000000000000000000000000000000000],
   [0b100101110011101110000000011111100111100010010111011100111110101100001010101011100000001,
    0b000000000000000000000000000000000000000000000000000000100000000000000000000000000000000],
   [0b111111100001101010001111000110001000000010001011010101001111110101100000101111001111011,
    0b000000000000000000000000000000000000000000000000000000010000000000000000000000000000000],
   [0b010010000100111111101101101110001111001110001101101101110100101001110110101101011111010,
    0b000000000000000000000000000000000000000000000000000000001000000000000000000000000000000],
   [0b111110010010110011010010111010011100101011000111110011111011100001011000000101100111100,
    0b000000000000000000000000000000000000000000000000000000000100000000000000000000000000000],
   [0b110011100111101001111111000010110010110100110010111010111111010111001011100100110100110,
    0b000000000000000000000000000000000000000000000000000000000010000000000000000000000000000],
   [0b011000111111011011110110001011011011000101111010010110100100001110001110110011001101101,
    0b000000000000000000000000000000000000000000000000000000000001000000000000000000000000000],
   [0b101001111000110111111010001000001110111000000010101100111011001100010111100110110101001,
    0b000000000000000000000000000000000000000000000000000000000000100000000000000000000000000],
   [0b100000110110000100100011000011111010000100000110000111110000110010010110000000001101111,
    0b000000000000000000000000000000000000000000000000000000000000010000000000000000000000000],
   [0b110110100011101100010001101110101000001100101010101100011101000000100001110011001110000,
    0b000000000000000000000000000000000000000000000000000000000000001000000000000000000000000],
   [0b111110100010100000100001111111000001111101000100101000100000111111111101010011011000010,
    0b000000000000000000000000000000000000000000000000000000000000000100000000000000000000000],
   [0b001101010010010100010100001000000000100001010010110011111010011001110010110101011011001,
    0b000000000000000000000000000000000000000000000000000000000000000010000000000000000000000],
   [0b100010101000011110010010100101110101100101100010111110010100110111100000110101010011001,
    0b000000000000000000000000000000000000000000000000000000000000000001000000000000000000000],
   [0b011011101100101000010000111111100001101011101111110101001101010111110010010001101110101,
    0b000000000000000000000000000000000000000000000000000000000000000000100000000000000000000],
   [0b110010110100001000010010110000110100001011001110110111111111010011110101111001110101111,
    0b000000000000000000000000000000000000000000000000000000000000000000010000000000000000000],
   [0b000001100111100010000001000000010101001100000100110111000010010100110101010010001111100,
    0b000000000000000000000000000000000000000000000000000000000000000000001000000000000000000],
   [0b001001110110101011101010001101110110110100100011101101111101100100011010100110110001100,
    0b000000000000000000000000000000000000000000000000000000000000000000000100000000000000000],
   [0b000111010111100100000110101100101101111011100010011100010010100100001000001001111100101,
    0b000000000000000000000000000000000000000000000000000000000000000000000010000000000000000],
   [0b001011000110111111011000011111100000100101000011011010000111110011001111010101100000001,
    0b000000000000000000000000000000000000000000000000000000000000000000000001000000000000000],
   [0b111100001100110100110100001111011001100101010101110010011000100110010101010101011001111,
    0b000000000000000000000000000000000000000000000000000000000000000000000000100000000000000],
   [0b000001101110011011001101010111100011001100001000111011100101100001011100001100111100101,
    0b000000000000000000000000000000000000000000000000000000000000000000000000010000000000000],
   [0b001010101101001100110010010000111101001011010010101110001110101101111111111110110111011,
    0b000000000000000000000000000000000000000000000000000000000000000000000000001000000000000],
   [0b110110011001110100101101011010001101111010011010010111011001100001000110100110000000000,
    0b000000000000000000000000000000000000000000000000000000000000000000000000000100000000000],
   [0b101000100101111101001100111011001001110111111010011001101000011010111000010101000001000,
    0b000000000000000000000000000000000000000000000000000000000000000000000000000010000000000],
   [0b001110101110001110011100100011000001101001111000101100011111011010110100110000011111100,
    0b000000000000000000000000000000000000000000000000000000000000000000000000000001000000000],
   [0b001101101100011010011111011101100110001101111010001000011111111100001110100001110011101,
    0b000000000000000000000000000000000000000000000000000000000000000000000000000000100000000],
   [0b000000010011010011010011001101001111011111000000011011101011001111100101100100101111110,
    0b000000000000000000000000000000000000000000000000000000000000000000000000000000010000000],
   [0b000000100110110001001000101100111011110100111011010100101010111010011011111111110110001,
    0b000000000000000000000000000000000000000000000000000000000000000000000000000000001000000],
   [0b010100010101011100110010011111110011100110101011101001110101011100101101010010100110100,
    0b000000000000000000000000000000000000000000000000000000000000000000000000000000000100000],
   [0b101000001111000111011011000110110011110000000101111100100001100000110010000100110011001,
    0b000000000000000000000000000000000000000000000000000000000000000000000000000000000010000],
   [0b010001010001100110101111000111111000000100101011011110010011011111010001101110101000110,
    0b000000000000000000000000000000000000000000000000000000000000000000000000000000000001000],
   [0b100110001100100001110000111001101010011100101000011010010000100000101011111011010101010,
    0b000000000000000000000000000000000000000000000000000000000000000000000000000000000000100],
   [0b100110101111111111110101011101101101001010111010111001110100100101111100100010111000000,
    0b000000000000000000000000000000000000000000000000000000000000000000000000000000000000010],
   [0b110100100100000101110001110110110011000010110101100011110001011100010101001101111101101,
    0b000000000000000000000000000000000000000000000000000000000000000000000000000000000000001]]

/-- The entry of a row in a column. -/
def js8Bit (col : ℕ) (row : List ℕ) : Bool := (row.getD (col / 87) 0).testBit (86 - col % 87)

/-- The generator in row-major order. -/
def g_js8_gen (i : ℕ) : UInt8 := if js8Bit (i % N) (js8GenRows.getD (i / N) []) then 1 else 0

def js8_osd_decode (llr : Fin N → ℚ) (order : ℤ) : Option (Vector Bool N × ℚ) :=
  osd_decode_n174 llr 87 g_js8_gen order

/-- The message bits of a decoded word, which are read behind the parity bits whichever decoder
found it. -/
def info (xhat : Vector Bool N) : List Bool := xhat.toList.drop 87

/-- A column of the generator, the first row in the lowest bit. -/
def js8Column (p : Fin N) : BitVec 87 :=
  Gf2.ofBools 87 (js8GenRows.map (js8Bit p))

theorem getLsbD_js8Column (r : Fin 87) (p : Fin N) :
    (js8Column p).getLsbD r = decide (g_js8_gen (r * N + p) ≠ 0) := by
  have hnil : js8Bit p [] = false := Nat.zero_testBit _
  have hgetD : (js8GenRows.map (js8Bit p)).getD r false = js8Bit p (js8GenRows.getD r []) := by
    rw [← hnil, List.getD_map]
  rw [js8Column, Gf2.getLsbD_ofBools _ r.isLt, hgetD, g_js8_gen, row_div, row_mod]
  cases js8Bit p (js8GenRows.getD r []) <;> rfl

theorem inverseTest : js8.InverseTest := by decide +kernel

theorem agree : js8.Agree g_js8_gen js8Column 87 where
  entry := getLsbD_js8Column
  inverse := inverseTest
  orthogonal := by decide +kernel
  independent := by decide +kernel
  systematic := by decide +kernel
  dim := rfl
  info_le := by decide

/-- A word satisfies all checks exactly when it is the combination of the generator's rows with the
coefficients that stand in its last 87 positions; the adjacency of the variables is that of the
checks. So the test of the sum-product decoder accepts the words that the ordered-statistics
decoder can return, but for zero, and these are the encodings of the message read from them. -/
theorem checks_iff_codeword :
    (∀ x : Vector Bool N, (∀ i < 87, js8.Check i x) ↔
      wordVec x = ∑ r : Fin 87, Gf2.bit (x.get (Fin.natAdd 87 r)) • generator 87 g_js8_gen r) ∧
    js8.Inverse ∧
    (∀ x : Vector Bool N, js8.accepts x ↔ x ≠ Vector.replicate N false ∧
      ∃ llr order dist, js8_osd_decode llr order = some (x, dist)) ∧
    ∀ (x : Vector Bool N) (llr : Fin N → ℚ) (order : ℤ) (dist : ℚ),
      js8_osd_decode llr order = some (x, dist) →
        wordVec x = ∑ r : Fin 87, Gf2.bit ((info x).getD r false) • generator 87 g_js8_gen r := by
  -- the message stands in the last 87 places
  have hinfo : ∀ (x : Vector Bool N) (r : Fin 87),
      (info x).getD r false = x.get (Fin.natAdd 87 r) := by
    intro x r
    rw [info, List.getD_eq_getElem?_getD, List.getElem?_drop, ← List.getD_eq_getElem?_getD,
      List.getD_eq_getElem _ _ (by rw [Vector.length_toList]; exact (Fin.natAdd 87 r).isLt)]
    rfl
  have hget : ∀ (x : Vector Bool N) (r : Fin 87),
      x.get (Fin.ofNat N (87 + r)) = x.get (Fin.natAdd 87 r) :=
    fun x r => congrArg x.get (ofNat_eq_mk (Fin.natAdd 87 r).isLt)
  refine ⟨fun x => ?_, js8.inverse_of_test inverseTest, fun x => ?_,
    fun x llr order dist hosd => ?_⟩
  · refine (agree.check_iff x).trans ((agree.mem_span_iff x).trans ?_)
    simp only [hget]
  · rw [agree.accepts_iff, ← agree.exists_osd_iff (by decide)]
    rfl
  · simp only [hinfo, ← hget]
    exact (agree.mem_span_iff x).1 (osd_decode_n174_spec llr g_js8_gen hosd).1

end GranolaSdr.Cuda.Ldpc.Js8
